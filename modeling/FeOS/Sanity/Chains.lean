import FeOS.Sanity.SealCuts

/-! Chains that load, and what keeps them loading: layers stand under the ids of their content,
and a layer goes only if no row names it. -/

namespace FeOS

open Function List

namespace Loads
variable {Hash : Type} {layers layers' : Hash → Option (Manifest Hash)}

theorem mono : ∀ {want : Option Hash} {ids : List Hash} {ms : List (Manifest Hash)},
    (∀ id ∈ ids, ∀ m, layers id = some m → layers' id = some m) → Loads layers want ids ms →
    Loads layers' want ids ms
  | _, [], _, _, h => h
  | _, id :: _, _, hk, ⟨m, ms', hms, hl, hp, hrest⟩ =>
    ⟨m, ms', hms, hk id mem_cons_self m hl, hp,
      hrest.mono fun id' hid' => hk id' (mem_cons_of_mem _ hid')⟩

theorem take : ∀ {want : Option Hash} {ids : List Hash} {ms : List (Manifest Hash)} (k : ℕ),
    Loads layers want ids ms → Loads layers want (ids.take k) (ms.take k)
  | _, _, _, 0, _ => rfl
  | _, [], ms, k + 1, h => by
    rw [show ms = [] from h]
    rfl
  | _, id :: ids, _, k + 1, ⟨m, ms', hms, hl, hp, hrest⟩ => by
    rw [hms]
    exact ⟨m, ms'.take k, rfl, hl, hp, hrest.take k⟩

theorem concat {id : Hash} {m : Manifest Hash} (hl : layers id = some m) :
    ∀ {want : Option Hash} {ids : List Hash} {ms : List (Manifest Hash)},
    Loads layers want ids ms → ids ≠ [] → m.parent = ids.getLast? →
    Loads layers want (ids ++ [id]) (ms ++ [m])
  | _, [], _, _, hne, _ => absurd rfl hne
  | _, [a], _, ⟨ma, ms', hms, ha, hp, hrest⟩, _, hparent => by
    rw [hms, show ms' = [] from hrest]
    exact ⟨ma, [m], rfl, ha, hp, m, [], rfl, hl, fun _ => hparent, rfl⟩
  | _, a :: b :: ids, _, ⟨ma, ms', hms, ha, hp, hrest⟩, _, hparent => by
    rw [hms]
    exact ⟨ma, ms' ++ [m], rfl, ha, hp, hrest.concat hl (cons_ne_nil b ids) hparent⟩

theorem isSome : ∀ {want : Option Hash} {ids : List Hash} {ms : List (Manifest Hash)},
    Loads layers want ids ms → ∀ id ∈ ids, (layers id).isSome
  | _, id :: ids, _, ⟨m, ms', _, hl, _, hrest⟩, id', hid' => by
    rcases mem_cons.1 hid' with rfl | hid'
    · rw [hl]
      rfl
    · exact hrest.isSome id' hid'

theorem map_id {L : Crates Hash} (hids : ∀ id m, layers id = some m → L.layerId m = id) :
    ∀ {want : Option Hash} {ids : List Hash} {ms : List (Manifest Hash)},
    Loads layers want ids ms → ms.map L.layerId = ids
  | _, [], ms, h => by
    rw [show ms = [] from h]
    rfl
  | _, id :: ids, _, ⟨m, ms', hms, hl, _, hrest⟩ => by
    rw [hms, map_cons, hids id m hl, hrest.map_id hids]

end Loads

section Identity
variable {Hash : Type} {L : Crates Hash}

theorem length_leBytes : ∀ w n : ℕ, (leBytes w n).length = w
  | 0, _ => rfl
  | w + 1, n => congrArg (· + 1) (length_leBytes w (n / 256))

theorem Crates.Ideal.parent_eq (hL : L.Ideal) {m m' : Manifest Hash} (h : L.layerId m = L.layerId m')
    (hm : m.parent ≠ some L.zeroHash) (hm' : m'.parent ≠ some L.zeroHash) : m.parent = m'.parent := by
  have hpre := hL.blake3_inj h
  simp only [Crates.layerPreimage, append_assoc] at hpre
  have h1 := (append_inj hpre (by simp only [length_leBytes])).2
  have h2 := (append_inj h1 (by simp only [length_leBytes])).2
  have hroot := (hL.asBytes_split _ _ _ _ h2).1
  cases hp : m.parent with
  | none =>
    cases hp' : m'.parent with
    | none => rfl
    | some b =>
      rw [hp, hp'] at hroot
      exact absurd (hp'.trans (congrArg some hroot.symm)) hm'
  | some a =>
    cases hp' : m'.parent with
    | none =>
      rw [hp, hp'] at hroot
      exact absurd (hp.trans (congrArg some hroot)) hm
    | some b =>
      rw [hp, hp'] at hroot
      exact congrArg some hroot

end Identity

variable {Hash : Type}

def Named (rows : String → Option (DeviceRow Hash)) (id : Hash) : Prop :=
  ∃ pod row, rows pod = some row ∧ id ∈ row.chain

structure Sound (L : Crates Hash) (n : Node Hash) : Prop where
  ids : ∀ id m, n.layers id = some m → L.layerId m = id
  parents : ∀ id m, n.layers id = some m → m.parent ≠ some L.zeroHash
  rows : ∀ pod row, n.rows pod = some row → row.chain ≠ [] ∧ 0 < row.sharedDepth ∧
    ∃ ms, Loads n.layers none row.chain ms

section Frame
variable {L : Crates Hash} {n n' : Node Hash}

theorem Sound.sub (h : Sound L n) (hl : n'.layers = n.layers)
    (hr : ∀ pod row', n'.rows pod = some row' → ∃ row, n.rows pod = some row ∧
      row'.chain = row.chain ∧ row'.sharedDepth = row.sharedDepth) : Sound L n' := by
  refine ⟨?_, ?_, fun pod row' hrow' => ?_⟩
  · rw [hl]
    exact h.ids
  · rw [hl]
    exact h.parents
  · obtain ⟨row, hrow, hchain, hdepth⟩ := hr pod row' hrow'
    rw [hl, hchain, hdepth]
    exact h.rows pod row hrow

theorem Sound.congr (h : Sound L n) (hl : n'.layers = n.layers) (hr : n'.rows = n.rows) : Sound L n' :=
  h.sub hl fun _ row' hrow' => ⟨row', hr ▸ hrow', rfl, rfl⟩

theorem Sound.put (h : Sound L n) {pod : String} {row : DeviceRow Hash} (hne : row.chain ≠ [])
    (hdepth : 0 < row.sharedDepth) (hms : ∃ ms, Loads n.layers none row.chain ms)
    (hl : n'.layers = n.layers) (hr : n'.rows = update n.rows pod (some row)) : Sound L n' := by
  refine ⟨?_, ?_, ?_⟩
  · rw [hl]
    exact h.ids
  · rw [hl]
    exact h.parents
  · rw [hl, hr]
    intro pod' row' hrow'
    by_cases hpod : pod' = pod
    · rw [hpod, update_self, Option.some.injEq] at hrow'
      subst hrow'
      exact ⟨hne, hdepth, hms⟩
    · rw [update_of_ne hpod] at hrow'
      exact h.rows pod' row' hrow'

variable [DecidableEq Hash]

variable {layers : Hash → Option (Manifest Hash)} {M m : Manifest Hash} {id : Hash}

theorem commitLayer_mono (h : layers id = some m) : commitLayer L layers M id = some m := by
  rw [commitLayer]
  split_ifs with hs
  · exact h
  · rw [update_of_ne, h]
    rintro rfl
    simp [h] at hs

theorem commitLayer_some
    (h : commitLayer L layers M id = some m) : layers id = some m ∨ id = L.layerId M ∧ m = M := by
  rw [commitLayer] at h
  split_ifs at h with hs
  · exact Or.inl h
  · by_cases hid : id = L.layerId M
    · rw [hid, update_self] at h
      exact Or.inr ⟨hid, (Option.some.inj h).symm⟩
    · rw [update_of_ne hid] at h
      exact Or.inl h

theorem commitLayer_self (layers : Hash → Option (Manifest Hash)) (M : Manifest Hash) :
    (commitLayer L layers M (L.layerId M)).isSome := by
  rw [commitLayer]
  split_ifs with hs
  · exact hs
  · rw [update_self]
    rfl

theorem Sound.commit (h : Sound L n) (hM : M.parent ≠ some L.zeroHash)
    (hl : n'.layers = commitLayer L n.layers M) (hr : n'.rows = n.rows) : Sound L n' := by
  refine ⟨?_, ?_, ?_⟩
  · rw [hl]
    intro id m hm
    rcases commitLayer_some hm with hm | ⟨rfl, rfl⟩
    · exact h.ids id m hm
    · rfl
  · rw [hl]
    intro id m hm
    rcases commitLayer_some hm with hm | ⟨rfl, rfl⟩
    · exact h.parents id m hm
    · exact hM
  · rw [hl, hr]
    intro pod row hrow
    obtain ⟨hne, hdepth, ms, hms⟩ := h.rows pod row hrow
    exact ⟨hne, hdepth, ms, hms.mono fun _ _ _ hm => commitLayer_mono hm⟩

theorem Sound.remove (h : Sound L n) {old : Hash} (hnot : ¬ Named n.rows old)
    (hl : n'.layers = update n.layers old none) (hr : n'.rows = n.rows) : Sound L n' := by
  have hother : ∀ id m, n'.layers id = some m → n.layers id = some m := by
    intro id m hm
    rw [hl] at hm
    by_cases hid : id = old
    · simp [hid, update_self] at hm
    · rwa [update_of_ne hid] at hm
  refine ⟨fun id m hm => h.ids id m (hother id m hm), fun id m hm => h.parents id m (hother id m hm), ?_⟩
  rw [hr]
  intro pod row hrow
  obtain ⟨hne, hdepth, ms, hms⟩ := h.rows pod row hrow
  refine ⟨hne, hdepth, ms, hms.mono fun id hid m hm => ?_⟩
  rw [hl, update_of_ne, hm]
  rintro rfl
  exact hnot ⟨pod, row, hrow, hid⟩

end Frame

end FeOS

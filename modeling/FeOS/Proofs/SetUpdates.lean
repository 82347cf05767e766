import FeOS.Lib.Cells
import FeOS.Lib.Runs
import FeOS.Sanity.NftKeys

/-! Updates of a policy's sets reach the next policy. The kernel keeps the starts and ends of
ranges, and `delta` changes whole ranges: since the ranges of both policies are normal, what is
removed is there, what is added is not, and the markers that stay are those of the ranges that
stay. -/

namespace FeOS.Network

open List Keyed

open Markers (Marker Tracks Holds deleteAll insertAll)

def Family.zero (f : Family) : Bytes := replicate f.width 0

theorem Family.zero_le (f : Family) (k : Bytes) (hk : k.length = f.width) : f.zero ≤ k := by
  have hvalue : ∀ n, BigEndian.value (replicate n (0 : Fin 256)) = 0 := by
    intro n
    induction n with
    | zero => rfl
    | succ n ih =>
      rw [replicate_succ, BigEndian.value, ih]
      exact (Nat.add_zero _).trans (Nat.zero_mul _)
  rw [Family.zero, BigEndian.le_iff (by rw [length_replicate, hk]), hvalue]
  exact Nat.zero_le _

def Kept (K : Kernel) (name : String) (set : AddressSet) : Prop :=
  ∃ ranges, set.Of ranges ∧ Tracks next set.family.zero (K name) (ranges.map set.family.keys)

def Applied.Kept (s : Applied) : Prop := ∀ p ∈ s.policy.sets.items, Network.Kept s.kernel p.1 p.2

def Applied.Shows (s : Applied) : Prop :=
  ∀ p ∈ s.policy.sets.items, ∀ a : IpAddr, a.family = p.2.family →
    (Holds (s.kernel p.1) a.octets ↔ p.2.contains a = true)

variable {a : IpAddr} {set : AddressSet} {ranges : List Range} {s : Applied} {changes : List (String × SetChange)}
  {name : String}

theorem AddressRange.contains_new {r : Range} (h : r.1 ≤ r.2 ∧ r.2 ≤ a.family.top) :
    (AddressRange.new a.family r).contains a = true ↔ r.1 ≤ a.number ∧ a.number ≤ r.2 := by
  have hnumbers := numbers_new h
  cases a with
  | v4 a =>
    obtain ⟨h1, h2⟩ := Prod.mk.inj hnumbers
    simp only [IpAddr.family, AddressRange.new, AddressRange.contains, h1, h2, IpAddr.number, Bool.and_eq_true,
      decide_eq_true_eq]
  | v6 a =>
    obtain ⟨h1, h2⟩ := Prod.mk.inj hnumbers
    simp only [IpAddr.family, AddressRange.new, AddressRange.contains, h1, h2, IpAddr.number, Bool.and_eq_true,
      decide_eq_true_eq]

theorem AddressSet.Of.contains_iff (h : set.Of ranges)
    (ha : a.family = set.family) : set.contains a = true ↔ ∃ r ∈ ranges, r.1 ≤ a.number ∧ a.number ≤ r.2 := by
  rw [h.eq, ← ha, AddressSet.contains, AddressSet.new, any_map, any_eq_true]
  refine exists_congr fun r => and_congr_right fun hr => ?_
  have hvalid := h.normal.valid r hr
  rw [← ha] at hvalid
  exact AddressRange.contains_new hvalid

theorem Applied.Kept.shows (h : s.Kept) : s.Shows := by
  intro p hp a ha
  obtain ⟨ranges, hof, htracks⟩ := h p hp
  have hlen : a.octets.length = p.2.family.width := by rw [IpAddr.octets_eq, length_octets, ha]
  have htop := a.number_le
  rw [htracks.holds_iff (next_next _) (keys_normal hof.normal) p.2.family.zero_le hlen, hof.contains_iff ha]
  constructor
  · rintro ⟨k, hk, hle, hge⟩
    obtain ⟨r, hr, rfl⟩ := mem_map.1 hk
    have hvalid := hof.normal.valid r hr
    rw [← ha] at hvalid hle hge
    rw [IpAddr.octets_eq] at hle hge
    exact ⟨r, hr, (octets_le (hvalid.1.trans hvalid.2) htop).1 hle, (octets_le htop hvalid.2).1 hge⟩
  · rintro ⟨r, hr, hle, hge⟩
    have hvalid := hof.normal.valid r hr
    rw [← ha] at hvalid
    refine ⟨_, mem_map_of_mem hr, ?_, ?_⟩
    · rw [← ha, IpAddr.octets_eq]
      exact (octets_le (hvalid.1.trans hvalid.2) htop).2 hle
    · rw [← ha, IpAddr.octets_eq]
      exact (octets_le htop hvalid.2).2 hge

/-! A whole table -/

theorem newSet_ok (h : set.Of ranges) (name : String) :
    ∃ M, (∀ K, newSet K (intervals name set) = .ok (Function.update K name M)) ∧
      Tracks next set.family.zero M (ranges.map set.family.keys) := by
  obtain ⟨encoded, zero, hencoded, hzero, hmarks⟩ := setElements_ok (intervals_isOf name set) h.normal .whole
  have helements : (intervals name set).elements = set.family.elements ranges :=
    congrArg (map element) (congrArg AddressSet.ranges h.eq)
  refine ⟨(encoded.map Encoded.marker).toFinset, fun K => ?_, fun m hm => ?_⟩
  · rw [newSet, helements, hencoded]
    rfl
  · rw [mem_toFinset, hmarks, mem_append, mem_flatMap]
    refine or_iff_right fun hmem => ?_
    rcases hzero with rfl | ⟨-, rfl⟩
    · cases hmem
    · exact hm (mem_singleton.1 hmem)

theorem keys_nodup (policy : Policy) : (policy.sets.items.map Prod.fst).Nodup := policy.sets.sorted.nodup

theorem replace_ok (L : Libs) (input : Input) :
    ∃ K, replace (addressSets (compile L input)) = .ok K ∧ Applied.Kept ⟨compile L input, K⟩ := by
  have hnew : ∀ p ∈ (compile L input).sets.items, ∃ M, (∀ K, newSet K (intervals p.1 p.2) = .ok (Function.update K p.1 M)) ∧
      ∃ ranges, p.2.Of ranges ∧ Tracks next p.2.family.zero M (ranges.map p.2.family.keys) := by
    intro p hp
    obtain ⟨ranges, hof⟩ := compile_normal L input hp
    obtain ⟨M, hM, htracks⟩ := newSet_ok hof p.1
    exact ⟨M, hM, ranges, hof, htracks⟩
  choose! M hM htracks using hnew
  obtain ⟨K, hrun, hcells, -⟩ := Cells.foldlM (K := fun _ => ∅) (g := M)
    (fun K p => newSet K (intervals p.1 p.2)) (keys_nodup (compile L input)) fun p hp K' _ => hM p hp K'
  refine ⟨K, ?_, fun p hp => ?_⟩
  · rw [replace, addressSets, foldlM_map]
    exact hrun
  · obtain ⟨ranges, hof, h⟩ := htracks p hp
    rw [← hcells p hp] at h
    exact ⟨ranges, hof, h⟩

/-! A delta -/

section Delta
variable {old : Table String AddressSet} {items : List (String × AddressSet)} {changes : List (String × SetChange)}

section
variable (h : setChanges old items = some changes)
include h

theorem setChanges_names :
    (changes.map Prod.fst).Sublist (items.map Prod.fst) := by
  fun_induction setChanges old items generalizing changes with
  | case1 =>
    cases h
    exact .slnil
  | case2 | case3 => cases h
  | case4 _ _ _ _ _ ih => exact (ih h).cons _
  | case5 _ _ _ _ _ _ _ ih =>
    obtain ⟨rest, hrest, rfl⟩ := Option.map_eq_some_iff.1 h
    exact (ih hrest).cons_cons _

theorem of_mem_setChanges {c : String × SetChange} (hc : c ∈ changes) :
    ∃ before after, old.get c.1 = some before ∧ (c.1, after) ∈ items ∧ before.family = after.family ∧
      before ≠ after ∧ c.2 = setChange before after := by
  fun_induction setChanges old items generalizing changes with
  | case1 =>
    cases h
    cases hc
  | case2 | case3 => cases h
  | case4 name items before hbefore hfamily ih =>
    obtain ⟨before, after, hget, hafter, hrest⟩ := ih h hc
    exact ⟨before, after, hget, mem_cons_of_mem _ hafter, hrest⟩
  | case5 name after items before hbefore hfamily hsame ih =>
    obtain ⟨rest, hrest, rfl⟩ := Option.map_eq_some_iff.1 h
    rcases mem_cons.1 hc with rfl | hc
    · exact ⟨before, after, hbefore, mem_cons_self, not_not.1 hfamily, hsame, rfl⟩
    · obtain ⟨before, after, hget, hafter, hrest⟩ := ih hrest hc
      exact ⟨before, after, hget, mem_cons_of_mem _ hafter, hrest⟩

theorem setChanges_mem {p : String × AddressSet} (hp : p ∈ items) :
    ∃ before, old.get p.1 = some before ∧ (before = p.2 ∨ (p.1, setChange before p.2) ∈ changes) := by
  fun_induction setChanges old items generalizing changes with
  | case1 => cases hp
  | case2 | case3 => cases h
  | case4 name items before hbefore hfamily ih =>
    rcases mem_cons.1 hp with rfl | hp
    · exact ⟨before, hbefore, .inl rfl⟩
    · exact ih h hp
  | case5 name after items before hbefore hfamily hsame ih =>
    obtain ⟨rest, hrest, rfl⟩ := Option.map_eq_some_iff.1 h
    rcases mem_cons.1 hp with rfl | hp
    · exact ⟨before, hbefore, .inr mem_cons_self⟩
    · obtain ⟨before', hget, hcase⟩ := ih hrest hp
      exact ⟨before', hget, hcase.imp_right (mem_cons_of_mem _)⟩

end

end Delta

theorem delta_elements {old new : Policy} (h : delta old new = .elements changes) :
    setChanges old.sets new.sets.items = some changes := by
  unfold delta at h
  split_ifs at h
  split at h
  · next hchanges =>
    cases h
    exact hchanges
  · cases h

theorem find_addressSets {policy : Policy} (h : (name, set) ∈ policy.sets.items) :
    (addressSets policy).find? (fun s => s.name = name) = some (intervals name set) := by
  have hlook := (look_eq_some (keys_nodup policy)).2 ⟨h, rfl⟩
  rw [addressSets, find?_map]
  exact congrArg (Option.map fun p => intervals p.1 p.2) hlook

theorem setChange_ok {sets : List NftSet} {K : Kernel} {before after : AddressSet} {ranges' : List Range}
    (hfind : sets.find? (fun s => s.name = name) = some (intervals name before)) (hfamily : before.family = after.family)
    (hbefore : Kept K name before) (hafter : after.Of ranges') :
    ∃ M₁ M₂ : Finset (Marker Bytes),
      (∀ K', K' name = K name →
        applyOp sets K' (.delete name ((setChange before after).remove.map element)) = .ok (Function.update K' name M₁)) ∧
      (∀ K', K' name = M₁ →
        applyOp sets K' (.add name ((setChange before after).add.map element)) = .ok (Function.update K' name M₂)) ∧
      ((setChange before after).remove = [] → K name = M₁) ∧ ((setChange before after).add = [] → M₁ = M₂) ∧
      Tracks next after.family.zero M₂ (ranges'.map after.family.keys) := by
  obtain ⟨ranges, hof, htracks⟩ := hbefore
  have hnormal : NormalRanges after.family.top ranges := hfamily ▸ hof.normal
  have hremoved : NormalRanges after.family.top (ranges.filter (· ∉ ranges')) :=
    ⟨fun r hr => hnormal.valid r (mem_of_mem_filter hr), hnormal.apart.sublist filter_sublist⟩
  have hadded : NormalRanges after.family.top (ranges'.filter (· ∉ ranges)) :=
    ⟨fun r hr => hafter.normal.valid r (mem_of_mem_filter hr), hafter.normal.apart.sublist filter_sublist⟩
  have hset : (intervals name before).IsOf after.family := hfamily ▸ intervals_isOf name before
  rw [hfamily] at htracks
  obtain ⟨M₁, M₂, hdelete, hinsert, htracks'⟩ := htracks.change (next_next _) (keys_normal hnormal)
    (keys_normal hafter.normal) (keys_normal hremoved) (mem_filter_keys hnormal hafter.normal)
    (keys_normal hadded) (mem_filter_keys hafter.normal hnormal) after.family.zero_le
  have hremove : (setChange before after).remove = (ranges.filter (· ∉ ranges')).map (AddressRange.new after.family) := by
    rw [setChange, hof.numbers_eq, hafter.numbers_eq]
  have hadd : (setChange before after).add = (ranges'.filter (· ∉ ranges)).map (AddressRange.new after.family) := by
    rw [setChange, hof.numbers_eq, hafter.numbers_eq]
  refine ⟨M₁, M₂, fun K' hK' => ?_, fun K' hK' => ?_, fun hnone => ?_, fun hnone => ?_, htracks'⟩
  · obtain ⟨encoded, zero, hencoded, hzero, hmarks⟩ := setElements_ok hset hremoved .delete
    obtain rfl := hzero.resolve_right fun h => by cases h.1
    rw [hremove, applyOp, hfind]
    change (setElements _ (after.family.elements _) _).bind _ = _
    rw [hencoded]
    dsimp only [Except.bind]
    rw [hmarks, nil_append, hK', hdelete]
  · obtain ⟨encoded, zero, hencoded, hzero, hmarks⟩ := setElements_ok hset hadded .add
    obtain rfl := hzero.resolve_right fun h => by cases h.1
    rw [hadd, applyOp, hfind]
    change (setElements _ (after.family.elements _) _).bind _ = _
    rw [hencoded]
    dsimp only [Except.bind]
    rw [hmarks, nil_append, hK', hinsert]
  · rw [hremove, map_eq_nil_iff] at hnone
    rw [hnone] at hdelete
    exact Option.some.inj hdelete
  · rw [hadd, map_eq_nil_iff] at hnone
    rw [hnone] at hinsert
    exact Option.some.inj hinsert

theorem update_ok (L : Libs) (hkept : s.Kept) {input : Input}
    (hdelta : delta s.policy (compile L input) = .elements changes) :
    ∃ K, update (addressSets s.policy) s.kernel (elementOps changes) = .ok K ∧ Applied.Kept ⟨compile L input, K⟩ := by
  have hchanges := delta_elements hdelta
  have hnodup : (changes.map Prod.fst).Nodup := (setChanges_names hchanges).nodup (keys_nodup (compile L input))
  have hone : ∀ c ∈ changes, ∃ M₁ M₂ : Finset (Marker Bytes),
      (∀ K', K' c.1 = s.kernel c.1 →
        applyOp (addressSets s.policy) K' (.delete c.1 (c.2.remove.map element)) = .ok (Function.update K' c.1 M₁)) ∧
      (∀ K', K' c.1 = M₁ →
        applyOp (addressSets s.policy) K' (.add c.1 (c.2.add.map element)) = .ok (Function.update K' c.1 M₂)) ∧
      (c.2.remove = [] → s.kernel c.1 = M₁) ∧ (c.2.add = [] → M₁ = M₂) ∧
      ∀ after, (c.1, after) ∈ (compile L input).sets.items →
        ∃ ranges, after.Of ranges ∧ Tracks next after.family.zero M₂ (ranges.map after.family.keys) := by
    intro c hc
    obtain ⟨before, after, hget, hafter, hfamily, -, heq⟩ := of_mem_setChanges hchanges hc
    have hbefore := Table.get_eq_some.1 hget
    obtain ⟨ranges', hof'⟩ := compile_normal L input hafter
    obtain ⟨M₁, M₂, hdelete, hadd, hnoremove, hnoadd, htracks⟩ :=
      setChange_ok (find_addressSets hbefore) hfamily (hkept _ hbefore) hof'
    rw [← heq] at hdelete hadd hnoremove hnoadd
    refine ⟨M₁, M₂, hdelete, hadd, hnoremove, hnoadd, fun after' hafter' => ?_⟩
    obtain rfl : after' = after := by
      have h1 := Table.get_eq_some.2 hafter
      rw [Table.get_eq_some.2 hafter'] at h1
      exact Option.some.inj h1
    exact ⟨ranges', hof', htracks⟩
  choose! M₁ M₂ hdelete hadd hnoremove hnoadd htracks using hone
  obtain ⟨K₁, hrun1, hcells1, hothers1⟩ := Cells.foldlM_filter (K := s.kernel) (g := M₁)
    (fun K' c => applyOp (addressSets s.policy) K' (.delete c.1 (c.2.remove.map element))) hnodup
    (fun c => c.2.remove ≠ []) (fun c hc _ K' hK' => hdelete c hc K' hK')
    fun c hc hdue => hnoremove c hc (by simpa using hdue)
  obtain ⟨K₂, hrun2, hcells2, hothers2⟩ := Cells.foldlM_filter (K := K₁) (g := M₂)
    (fun K' c => applyOp (addressSets s.policy) K' (.add c.1 (c.2.add.map element))) hnodup
    (fun c => c.2.add ≠ []) (fun c hc _ K' hK' => hadd c hc K' (hK'.trans (hcells1 c hc)))
    fun c hc hdue => (hcells1 c hc).trans (hnoadd c hc (by simpa using hdue))
  refine ⟨K₂, ?_, fun p hp => ?_⟩
  · rw [update, elementOps, foldlM_append, foldlM_map, hrun1]
    exact foldlM_map.trans hrun2
  · obtain ⟨before, hget, hsame | hchanged⟩ := setChanges_mem hchanges hp
    · -- a set that does not change is not touched
      have hnot : p.1 ∉ changes.map Prod.fst := by
        intro hmem
        obtain ⟨c, hc, hname⟩ := mem_map.1 hmem
        obtain ⟨before', after', hget', hafter', -, hne, -⟩ := of_mem_setChanges hchanges hc
        rw [hname, hget] at hget'
        rw [hname] at hafter'
        have hafter := Table.get_eq_some.2 hp
        rw [Table.get_eq_some.2 hafter'] at hafter
        exact hne ((Option.some.inj hget').symm.trans (hsame.trans (Option.some.inj hafter).symm))
      obtain ⟨ranges, hof, hkeep⟩ := hkept _ (Table.get_eq_some.1 hget)
      subst hsame
      rw [← hothers1 _ hnot, ← hothers2 _ hnot] at hkeep
      exact ⟨ranges, hof, hkeep⟩
    · obtain ⟨ranges, hof, h⟩ := htracks _ hchanged p.2 hp
      rw [← hcells2 _ hchanged] at h
      exact ⟨ranges, hof, h⟩

/-- From a table that is written whole, along any updates of elements, the kernel's sets hold
what the policy's do, and the next update of elements succeeds. -/
theorem updates_reach_policy (L : Libs) (first : Input) :
    ∃ K₀, replace (addressSets (compile L first)) = .ok K₀ ∧
      ∀ s, Runs.Reach (applyElements L) (fun _ _ => True) ⟨compile L first, K₀⟩ s →
        s.Shows ∧ ∀ input changes, delta s.policy (compile L input) = .elements changes →
          ∃ K, update (addressSets s.policy) s.kernel (elementOps changes) = .ok K ∧
            Applied.Shows ⟨compile L input, K⟩ := by
  obtain ⟨K₀, hreplace, hkept₀⟩ := replace_ok L first
  refine ⟨K₀, hreplace, fun s hreach => ?_⟩
  have hkept : s.Kept := by
    refine hreach.invariant hkept₀ fun s input s' hkept _ hs => ?_
    unfold applyElements at hs
    split at hs
    · next changes hdelta =>
      obtain ⟨K, hupdate, hkept'⟩ := update_ok L hkept hdelta
      rw [hupdate] at hs
      cases hs
      exact hkept'
    · cases hs
  refine ⟨hkept.shows, fun input changes hdelta => ?_⟩
  obtain ⟨K, hupdate, hkept'⟩ := update_ok L hkept hdelta
  exact ⟨K, hupdate, hkept'.shows⟩

/-! A group that a pod lets in gets a member next to the one it has, and loses it again. -/

def sampleLibs : Libs where
  parseIp text := if text = "fd00::" then some (.v6 (0xfd00 <<< 112))
    else if text = "10.0.0.0" then some (.v4 0x0a000000) else none
  parseIpv6 text := if text = "fd00::5" then some (0xfd00 <<< 112 + 5)
    else if text = "fd00::6" then some (0xfd00 <<< 112 + 6) else none
  showIp _ := ""
  debug text := text
  sha256 bytes := bytes

def sampleInput (members : List String) : Input where
  groups id := if id = "web" then some ⟨[⟨1, 1, [(443, 0)], some (.group "web")⟩], members⟩ else none
  pods := [⟨"pod-1", "pod-1", 0xfd00 <<< 112 + 9, ["web"]⟩]
  denied := [.v4 0x0a000000 8]

def sampleOne : List AddressRange := [.v6 (0xfd00 <<< 112 + 5) (0xfd00 <<< 112 + 5)]

def sampleTwo : List AddressRange := [.v6 (0xfd00 <<< 112 + 5) (0xfd00 <<< 112 + 6)]

theorem updates_reach_policy_there_and_back :
    ∃ K₀ K₁ K₂, replace (addressSets (compile sampleLibs (sampleInput ["fd00::5"]))) = .ok K₀ ∧
      update (addressSets (compile sampleLibs (sampleInput ["fd00::5"]))) K₀
        (elementOps [("g-web", ⟨sampleOne, sampleTwo⟩)]) = .ok K₁ ∧
      Applied.Shows ⟨compile sampleLibs (sampleInput ["fd00::6", "fd00::5"]), K₁⟩ ∧
      update (addressSets (compile sampleLibs (sampleInput ["fd00::6", "fd00::5"]))) K₁
        (elementOps [("g-web", ⟨sampleTwo, sampleOne⟩)]) = .ok K₂ ∧
      Applied.Shows ⟨compile sampleLibs (sampleInput ["fd00::5"]), K₂⟩ := by
  have hgrow : delta (compile sampleLibs (sampleInput ["fd00::5"]))
      (compile sampleLibs (sampleInput ["fd00::6", "fd00::5"])) =
      .elements [("g-web", ⟨sampleOne, sampleTwo⟩)] := by decide +kernel
  have hshrink : delta (compile sampleLibs (sampleInput ["fd00::6", "fd00::5"]))
      (compile sampleLibs (sampleInput ["fd00::5"])) =
      .elements [("g-web", ⟨sampleTwo, sampleOne⟩)] := by decide +kernel
  obtain ⟨K₀, h₀, hruns⟩ := updates_reach_policy sampleLibs (sampleInput ["fd00::5"])
  obtain ⟨K₁, h1, hshows1⟩ := (hruns _ .init).2 _ _ hgrow
  have hstep : applyElements sampleLibs ⟨compile sampleLibs (sampleInput ["fd00::5"]),
      K₀⟩ (sampleInput ["fd00::6", "fd00::5"]) =
      some ⟨compile sampleLibs (sampleInput ["fd00::6", "fd00::5"]), K₁⟩ := by
    rw [applyElements, hgrow]
    dsimp only at h1 ⊢
    rw [h1]
  obtain ⟨K₂, h2, hshows2⟩ := (hruns _ (Runs.Reach.init.step trivial hstep)).2 _ _ hshrink
  exact ⟨K₀, K₁, K₂, h₀, h1, hshows1, h2, hshows2⟩

end FeOS.Network

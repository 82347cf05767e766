import FeOS.Lib.Calls
import FeOS.Sanity.WireParts
import Mathlib.Data.Nat.Digits.Lemmas

/-! A table that goes in parts arrives as it is: the cuts give every item to one part, in order,
and what the loops count bounds what a part takes coded. -/

namespace FeOS.Wire

open List Results Cutting Table

variable {T : Kinds}

/-! Sizes -/

def sizeOr {α : Type} (size : α → Except String ℕ) (a : α) : ℕ := match size a with
  | .ok n => n
  | .error _ => 0

theorem eq_ok_sizeOr {α : Type} {size : α → Except String ℕ} {a : α} {n : ℕ} (h : size a = .ok n) :
    size a = .ok (sizeOr size a) := by
  rw [sizeOr, h]

theorem mapM_eq_ok {α : Type} {size : α → Except String ℕ} {l : List α} (h : ∀ a ∈ l, size a = .ok (sizeOr size a)) :
    l.mapM size = .ok (l.map (sizeOr size)) := by
  induction l with
  | nil => rfl
  | cons a l ih =>
    obtain ⟨ha, hl⟩ := forall_mem_cons.1 h
    rw [mapM_cons, ha, ih hl]
    rfl

theorem of_mapM_ok {α : Type} {size : α → Except String ℕ} {l : List α} {ns : List ℕ} (h : l.mapM size = .ok ns) :
    (∀ a ∈ l, size a = .ok (sizeOr size a)) ∧ ns = l.map (sizeOr size) := by
  have hall : ∀ a ∈ l, size a = .ok (sizeOr size a) := by
    induction l generalizing ns with
    | nil => simp
    | cons a l ih =>
      rw [mapM_cons] at h
      obtain ⟨n, ha, h⟩ := bind_eq_ok.1 h
      obtain ⟨ns', hl, -⟩ := bind_eq_ok.1 h
      exact forall_mem_cons.2 ⟨eq_ok_sizeOr ha, ih hl⟩
  refine ⟨hall, ?_⟩
  rw [mapM_eq_ok hall] at h
  exact (Except.ok.inj h).symm

structure Table.Coded (C : Codec T) (t : Table T) : Prop where
  envs : ∀ e ∈ t.envs, C.envSize e = .ok (sizeOr C.envSize e)
  removed : ∀ id ∈ t.removed, C.idSize id = .ok (sizeOr C.idSize id)
  mesh : optSize "mesh" C.meshSize t.mesh = .ok (sizeOr (optSize "mesh" C.meshSize) t.mesh)
  self : optSize "self" C.selfSize t.self = .ok (sizeOr (optSize "self" C.selfSize) t.self)
  challenges : optSize "challenges" C.challengesSize t.challenges =
    .ok (sizeOr (optSize "challenges" C.challengesSize) t.challenges)

variable (C : Codec T)

def Table.extras (t : Table T) : ℕ :=
  sizeOr (optSize "mesh" C.meshSize) t.mesh + sizeOr (optSize "self" C.selfSize) t.self +
    sizeOr (optSize "challenges" C.challengesSize) t.challenges

def envCost (e : Env T) : ℕ := sizeOr C.envSize e + 1

def idCost (id : String) : ℕ := sizeOr C.idSize id + 1

def Table.estimate (t : Table T) : ℕ :=
  partFrame + t.extras C + (t.envs.map (envCost C)).sum + (t.removed.map (idCost C)).sum

variable {C}

theorem decimals_le (n : UInt64) : decimals n.toNat ≤ 20 := by
  have hlt : n.toNat < 10 ^ 20 := lt_of_lt_of_le n.toNat_lt (by norm_num)
  refine max_le (by norm_num) ?_
  exact (Nat.digits_length_le_iff (by norm_num) _).2 hlt

theorem listSize_le {α : Type} (name : String) (size : α → ℕ) (l : List α) :
    listSize name (l.map size) ≤ keyLen name + 2 + (l.map fun a => size a + 1).sum := by
  unfold listSize
  split_ifs
  · exact Nat.zero_le _
  · have hsum : (l.map fun a => size a + 1).sum = (l.map size).sum + l.length := by
      rw [sum_map_add]
      simp
    rw [hsum, length_map]
    omega

theorem Table.Coded.codedSize_le {t : Table T} (h : t.Coded C) : ∃ n, codedSize C t = .ok n ∧ n ≤ t.estimate C := by
  unfold codedSize
  rw [mapM_eq_ok h.envs, mapM_eq_ok h.removed, h.mesh, h.self, h.challenges]
  refine ⟨_, rfl, ?_⟩
  have hseq := decimals_le t.seq
  have htime := C.timeSize_le t.sentAt
  have henvs : _ ≤ keyLen "envs" + 2 + (t.envs.map (envCost C)).sum := listSize_le "envs" (sizeOr C.envSize) t.envs
  have hids : _ ≤ keyLen "removed" + 2 + (t.removed.map (idCost C)).sum := listSize_le "removed" (sizeOr C.idSize) t.removed
  have hwhole : (if t.whole = true then keyLen "whole" + 4 else 0) ≤ 13 := by split_ifs <;> decide
  have hmore : (if t.more = true then keyLen "more" + 4 else 0) ≤ 12 := by split_ifs <;> decide
  have hkeys : keyLen "seq" = 7 ∧ keyLen "envs" = 8 ∧ keyLen "removed" = 11 ∧ keyLen "sentAt" = 10 := by decide
  simp only [estimate, extras, partFrame]
  omega

/-! Windows -/

section Window
variable {α : Type} {l : List α} {a b : ℕ}

theorem take_append_window (h : a ≤ b) : l.take a ++ window l a b = l.take b := by
  obtain ⟨d, rfl⟩ := Nat.exists_eq_add_of_le h
  rw [window, Nat.add_sub_cancel_left, take_add]

theorem length_window (h : b ≤ l.length) : (window l a b).length = b - a := by
  rw [window, length_take, length_drop]
  omega

theorem window_succ (h : a ≤ b) (hb : b < l.length) : window l a (b + 1) = window l a b ++ [l[b]] := by
  rw [window, window, Nat.sub_add_comm h, take_add_one, getElem?_drop, Nat.add_sub_cancel' h,
    getElem?_eq_getElem hb, Option.toList_some]

theorem window_self : window l a a = [] := by
  rw [window, Nat.sub_self, take_zero]

end Window

/-! Cuts -/

structure CutInv (C : Codec T) (t : Table T) (limit : ℤ) (e r : ℕ) (s : Cutting T) : Prop where
  heads : Heads t 0 (s.done ++ [s.cur])
  more : ∀ p ∈ s.done, p.more = true
  complete : s.cur.more = false
  envs : s.done.flatMap envs = t.envs.take s.envFrom
  removed : s.done.flatMap removed = t.removed.take s.idFrom
  envFrom_le : s.envFrom ≤ e
  idFrom_le : s.idFrom ≤ r
  env_le : e ≤ t.envs.length
  id_le : r ≤ t.removed.length
  items : s.items = (e - s.envFrom) + (r - s.idFrom)
  used : s.used = partFrame + s.cur.extras C + ((window t.envs s.envFrom e).map (envCost C)).sum +
    ((window t.removed s.idFrom r).map (idCost C)).sum
  fits : s.items ≤ 1 ∨ (s.used : ℤ) ≤ limit
  small : ∀ p ∈ s.done, p.envs.length + p.removed.length ≤ 1 ∨ (p.estimate C : ℤ) ≤ limit
  filled : ∀ p ∈ s.done, 0 < p.envs.length + p.removed.length

variable {t : Table T} {limit : ℤ} {e r : ℕ} {s : Cutting T}

theorem CutInv.begin : CutInv C t limit 0 0 (begin t (partFrame + t.extras C)) where
  heads := by
    rw [Cutting.begin, nil_append, heads_cons]
    exact ⟨rfl, rfl⟩
  more := by simp [Cutting.begin]
  complete := rfl
  envs := rfl
  removed := rfl
  envFrom_le := le_rfl
  idFrom_le := le_rfl
  env_le := Nat.zero_le _
  id_le := Nat.zero_le _
  items := rfl
  used := by
    change _ = _ + ((window t.envs 0 0).map (envCost C)).sum + ((window t.removed 0 0).map (idCost C)).sum
    rw [window_self, window_self]
    rfl
  fits := .inl (Nat.zero_le 1)
  small := by simp [Cutting.begin]
  filled := by simp [Cutting.begin]

theorem CutInv.cut_items (h : CutInv C t limit e r s) :
    (s.cut t e r).cur.envs.length + (s.cut t e r).cur.removed.length = s.items := by
  change (window t.envs s.envFrom e).length + (window t.removed s.idFrom r).length = s.items
  rw [length_window h.env_le, length_window h.id_le, h.items]

theorem CutInv.cut_small (h : CutInv C t limit e r s) :
    (s.cut t e r).cur.envs.length + (s.cut t e r).cur.removed.length ≤ 1 ∨ ((s.cut t e r).cur.estimate C : ℤ) ≤ limit := by
  refine h.fits.imp (fun hitems => h.cut_items.le.trans hitems) fun hused => ?_
  rw [h.used] at hused
  exact hused

theorem CutInv.next (h : CutInv C t limit e r s) (hitems : 0 < s.items) : CutInv C t limit e r ((s.cut t e r).next t) where
  heads := by
    have hcur := (heads_concat.1 h.heads).2
    change Heads t 0 ((s.done ++ [{ (s.cut t e r).cur with more := true }]) ++ [_])
    refine heads_concat.2 ⟨heads_concat.2 ⟨(heads_concat.1 h.heads).1, hcur⟩, ?_⟩
    have hseq : s.cur.seq = t.seq + UInt64.ofNat s.done.length := by
      have := congrArg seq hcur
      rwa [head_seq, Nat.zero_add] at this
    rw [head, if_neg (by simp)]
    change (⟨s.cur.seq + 1, _, _, _, _, _, _, _, _⟩ : Table T) = _
    rw [hseq, UInt64.add_assoc, Nat.zero_add, length_append, UInt64.ofNat_add]
    rfl
  more := by
    change ∀ p ∈ s.done ++ [_], _
    exact forall_mem_append.2 ⟨h.more, forall_mem_singleton.2 rfl⟩
  complete := rfl
  envs := by
    change (s.done ++ [_]).flatMap Table.envs = t.envs.take e
    rw [flatMap_append, h.envs, ← take_append_window h.envFrom_le]
    simp [cut]
  removed := by
    change (s.done ++ [_]).flatMap Table.removed = t.removed.take r
    rw [flatMap_append, h.removed, ← take_append_window h.idFrom_le]
    simp [cut]
  envFrom_le := le_rfl
  idFrom_le := le_rfl
  env_le := h.env_le
  id_le := h.id_le
  items := by
    change 0 = (e - e) + (r - r)
    omega
  used := by
    change partFrame = partFrame + 0 + ((window t.envs e e).map (envCost C)).sum +
      ((window t.removed r r).map (idCost C)).sum
    rw [window_self, window_self]
    rfl
  fits := .inl (Nat.zero_le 1)
  small := by
    change ∀ p ∈ s.done ++ [_], _
    exact forall_mem_append.2 ⟨h.small, forall_mem_singleton.2 h.cut_small⟩
  filled := by
    change ∀ p ∈ s.done ++ [_], _
    exact forall_mem_append.2 ⟨h.filled, forall_mem_singleton.2 (h.cut_items.symm ▸ hitems)⟩

def Cutting.Room (limit : ℤ) (n : ℕ) (s : Cutting T) : Prop := s.items = 0 ∨ ((s.used + n : ℕ) : ℤ) ≤ limit

theorem CutInv.addEnv (h : CutInv C t limit e r s) (he : e < t.envs.length) (hroom : s.Room limit (envCost C t.envs[e])) :
    CutInv C t limit (e + 1) r { s with used := s.used + envCost C t.envs[e], items := s.items + 1 } :=
  { h with
    envFrom_le := h.envFrom_le.trans (Nat.le_succ e)
    env_le := he
    items := by
      have := h.envFrom_le
      change s.items + 1 = (e + 1 - s.envFrom) + (r - s.idFrom)
      rw [h.items]
      omega
    used := by
      change s.used + _ = partFrame + s.cur.extras C + ((window t.envs s.envFrom (e + 1)).map (envCost C)).sum + _
      rw [window_succ h.envFrom_le he, h.used, map_append, sum_append, map_singleton, sum_singleton]
      dsimp only
      omega
    fits := hroom.imp (fun hnone => by simp [hnone]) id }

theorem CutInv.addId (h : CutInv C t limit e r s) (hr : r < t.removed.length)
    (hroom : s.Room limit (idCost C t.removed[r])) :
    CutInv C t limit e (r + 1) { s with used := s.used + idCost C t.removed[r], items := s.items + 1 } :=
  { h with
    idFrom_le := h.idFrom_le.trans (Nat.le_succ r)
    id_le := hr
    items := by
      have := h.idFrom_le
      change s.items + 1 = (e - s.envFrom) + (r + 1 - s.idFrom)
      rw [h.items]
      omega
    used := by
      change s.used + _ = partFrame + s.cur.extras C + _ + ((window t.removed s.idFrom (r + 1)).map (idCost C)).sum
      rw [window_succ h.idFrom_le hr, h.used, map_append, sum_append, map_singleton, sum_singleton]
      dsimp only
      omega
    fits := hroom.imp (fun hnone => by simp [hnone]) id }

theorem CutInv.makeRoom (h : CutInv C t limit e r s) (n : ℕ) :
    ∃ s', CutInv C t limit e r s' ∧ s'.Room limit n ∧
      s.item t limit n e r = { s' with used := s'.used + n, items := s'.items + 1 } := by
  by_cases hfull : 0 < s.items ∧ limit < (s.used + n : ℕ)
  · refine ⟨(s.cut t e r).next t, h.next hfull.1, .inl rfl, ?_⟩
    rw [item, if_pos hfull]
  · refine ⟨s, h, ?_, ?_⟩
    · rw [not_and_or, not_lt, not_lt] at hfull
      exact hfull.imp Nat.le_zero.1 id
    · rw [item, if_neg hfull]

theorem CutInv.envLoop {rest : List (Env T)} (h : CutInv C t limit e 0 s) (hrest : t.envs.drop e = rest) :
    CutInv C t limit t.envs.length 0 (envLoop t limit e (rest.map (envCost C)) s) := by
  induction rest generalizing e s with
  | nil =>
    have : e = t.envs.length := le_antisymm h.env_le (drop_eq_nil_iff.1 hrest)
    exact this ▸ h
  | cons a rest ih =>
    have he : e < t.envs.length := by
      by_contra hge
      rw [drop_eq_nil_of_le (not_lt.1 hge)] at hrest
      cases hrest
    rw [drop_eq_getElem_cons he] at hrest
    obtain ⟨rfl, hafter⟩ := cons_eq_cons.1 hrest
    obtain ⟨s', hs', hroom, heq⟩ := h.makeRoom (envCost C t.envs[e])
    rw [map_cons, envLoop, heq]
    exact ih (hs'.addEnv he hroom) hafter

theorem CutInv.idLoop {rest : List String} (h : CutInv C t limit t.envs.length r s) (hrest : t.removed.drop r = rest) :
    CutInv C t limit t.envs.length t.removed.length (idLoop t limit r (rest.map (idCost C)) s) := by
  induction rest generalizing r s with
  | nil =>
    have : r = t.removed.length := le_antisymm h.id_le (drop_eq_nil_iff.1 hrest)
    exact this ▸ h
  | cons a rest ih =>
    have hr : r < t.removed.length := by
      by_contra hge
      rw [drop_eq_nil_of_le (not_lt.1 hge)] at hrest
      cases hrest
    rw [drop_eq_getElem_cons hr] at hrest
    obtain ⟨rfl, hafter⟩ := cons_eq_cons.1 hrest
    obtain ⟨s', hs', hroom, heq⟩ := h.makeRoom (idCost C t.removed[r])
    rw [map_cons, idLoop, heq]
    exact ih (hs'.addId hr hroom) hafter

theorem Cutting.envLoop_items {i : ℕ} {ns : List ℕ} (h : (envLoop t limit i ns s).items = 0) : ns = [] ∧ s.items = 0 := by
  induction ns generalizing i s with
  | nil => exact ⟨rfl, h⟩
  | cons n ns ih => exact absurd (ih h).2 (Nat.succ_ne_zero _)

theorem Cutting.idLoop_items {i : ℕ} {ns : List ℕ} (h : (idLoop t limit i ns s).items = 0) : ns = [] ∧ s.items = 0 := by
  induction ns generalizing i s with
  | nil => exact ⟨rfl, h⟩
  | cons n ns ih => exact absurd (ih h).2 (Nat.succ_ne_zero _)

/-- Parts that carry a table, none of which takes more than the limit with two items or more, and none
without items unless the table has none. -/
structure Splits (C : Codec T) (t : Table T) (limit : ℤ) (pre : List (Table T)) (last : Table T) : Prop where
  carries : Carries t pre last
  small : ∀ p ∈ pre ++ [last], p.envs.length + p.removed.length ≤ 1 ∨ (p.estimate C : ℤ) ≤ limit
  filled : ∀ p ∈ pre ++ [last], p.envs.length + p.removed.length = 0 → t.envs = [] ∧ t.removed = []

theorem cutParts_splits (t : Table T) (limit : ℤ) :
    ∃ pre last, cutParts t limit (partFrame + t.extras C) (t.envs.map (envCost C))
      (t.removed.map (idCost C)) = pre ++ [last] ∧
      Splits C t limit pre last := by
  have henvs : CutInv C t limit t.envs.length 0 _ := CutInv.begin.envLoop drop_zero
  have h := henvs.idLoop drop_zero
  obtain ⟨hdone, hcur⟩ := heads_concat.1 h.heads
  refine ⟨_, _, rfl, ?_, ?_, ?_⟩
  · refine ⟨heads_concat.2 ⟨hdone, hcur⟩, h.more, h.complete, ?_, ?_⟩
    · rw [flatMap_append, flatMap_singleton]
      exact (congrArg (· ++ _) h.envs).trans ((take_append_window h.envFrom_le).trans take_length)
    · rw [flatMap_append, flatMap_singleton]
      exact (congrArg (· ++ _) h.removed).trans ((take_append_window h.idFrom_le).trans take_length)
  · exact forall_mem_append.2 ⟨h.small, forall_mem_singleton.2 h.cut_small⟩
  · refine forall_mem_append.2 ⟨fun p hp hnone => absurd hnone (h.filled p hp).ne', forall_mem_singleton.2 fun hnone => ?_⟩
    obtain ⟨hids, hitems⟩ := idLoop_items (h.cut_items.symm.trans hnone)
    exact ⟨map_eq_nil_iff.1 (envLoop_items hitems).1, map_eq_nil_iff.1 hids⟩

/-! `Split` -/

theorem mapM_succ {α : Type} (size : α → Except String ℕ) (l : List α) :
    l.mapM (fun a => (size a).map (· + 1)) = (l.mapM size).map (List.map (· + 1)) := by
  induction l with
  | nil => rfl
  | cons a l ih =>
    rw [mapM_cons, mapM_cons, ih]
    cases size a with
    | error e => rfl
    | ok n => cases l.mapM size <;> rfl

theorem Table.Coded.split_eq {t : Table T} (h : t.Coded C) (limit : ℤ) :
    split C t limit = .ok (if (t.estimate C : ℤ) ≤ limit then [t] else
      cutParts t limit (partFrame + t.extras C) (t.envs.map (envCost C)) (t.removed.map (idCost C))) := by
  have henvs : (t.envs.map (sizeOr C.envSize)).map (· + 1) = t.envs.map (envCost C) := map_map
  have hids : (t.removed.map (sizeOr C.idSize)).map (· + 1) = t.removed.map (idCost C) := map_map
  have hbase : baseSize C t = .ok (partFrame + t.extras C) := by
    unfold baseSize
    rw [h.mesh, h.self, h.challenges]
    refine congrArg Except.ok ?_
    rw [extras]
    omega
  unfold split
  rw [hbase, mapM_succ, mapM_succ, mapM_eq_ok h.envs, mapM_eq_ok h.removed]
  change (if ((partFrame + t.extras C + _ + _ : ℕ) : ℤ) ≤ limit then _ else _) = _
  rw [henvs, hids, estimate]
  split_ifs <;> rfl

theorem coded_of_codedSize {t : Table T} {n : ℕ} (h : codedSize C t = .ok n) : t.Coded C := by
  obtain ⟨envs, henvs, h⟩ := bind_eq_ok.1 h
  obtain ⟨ids, hids, h⟩ := bind_eq_ok.1 h
  obtain ⟨mesh, hmesh, h⟩ := bind_eq_ok.1 h
  obtain ⟨self, hself, h⟩ := bind_eq_ok.1 h
  obtain ⟨challenges, hchallenges, -⟩ := bind_eq_ok.1 h
  exact ⟨(of_mapM_ok henvs).1, (of_mapM_ok hids).1, eq_ok_sizeOr hmesh, eq_ok_sizeOr hself, eq_ok_sizeOr hchallenges⟩

theorem coded_of_split {t : Table T} {limit : ℤ} {parts : List (Table T)} (h : split C t limit = .ok parts) : t.Coded C := by
  obtain ⟨base, hbase, h⟩ := bind_eq_ok.1 h
  obtain ⟨envs, henvs, h⟩ := bind_eq_ok.1 h
  obtain ⟨ids, hids, -⟩ := bind_eq_ok.1 h
  obtain ⟨mesh, hmesh, h⟩ := bind_eq_ok.1 hbase
  obtain ⟨self, hself, h⟩ := bind_eq_ok.1 h
  obtain ⟨challenges, hchallenges, -⟩ := bind_eq_ok.1 h
  rw [mapM_succ] at henvs hids
  have hsizes : ∀ {α : Type} {size : α → Except String ℕ} {l : List α} {ns : List ℕ},
      (l.mapM size).map (List.map (· + 1)) = .ok ns → ∀ a ∈ l, size a = .ok (sizeOr size a) := by
    intro α size l ns hmap
    obtain ⟨ns', hl, -⟩ := map_eq_ok.1 hmap
    exact (of_mapM_ok hl).1
  exact ⟨hsizes henvs, hsizes hids, eq_ok_sizeOr hmesh, eq_ok_sizeOr hself, eq_ok_sizeOr hchallenges⟩

theorem splits_of_split {t : Table T} {limit : ℤ} {parts : List (Table T)} (hmore : t.more = false)
    (h : split C t limit = .ok parts) : ∃ pre last, parts = pre ++ [last] ∧ Splits C t limit pre last := by
  rw [(coded_of_split h).split_eq limit] at h
  obtain rfl := Except.ok.inj h
  split_ifs with hfits
  · refine ⟨[], t, rfl, ⟨heads_cons.2 ⟨rfl, rfl⟩, by simp, hmore, by simp, by simp⟩, ?_, ?_⟩
    · exact forall_mem_singleton.2 (.inr hfits)
    · exact forall_mem_singleton.2 fun hnone => by simpa using hnone
  · exact cutParts_splits t limit

theorem Carries.coded {t last : Table T} {pre : List (Table T)} (h : Carries t pre last) (hcoded : t.Coded C) {p : Table T}
    (hp : p ∈ pre ++ [last]) : p.Coded C := by
  have henvs : ∀ e ∈ p.envs, e ∈ t.envs := fun e he => h.envs ▸ mem_flatMap.2 ⟨p, hp, he⟩
  have hremoved : ∀ id ∈ p.removed, id ∈ t.removed := fun id hid => h.removed ▸ mem_flatMap.2 ⟨p, hp, hid⟩
  have hhead : ∃ k, p.header = head t k := by
    have hmem : p.header ∈ (pre ++ [last]).map header := mem_map_of_mem hp
    rw [h.heads] at hmem
    obtain ⟨k, -, hk⟩ := mem_map.1 hmem
    exact ⟨k, hk.symm⟩
  obtain ⟨k, hk⟩ := hhead
  unfold head at hk
  split_ifs at hk
  · have hmesh : p.mesh = t.mesh := show p.header.mesh = t.header.mesh from congrArg mesh hk
    have hself : p.self = t.self := show p.header.self = t.header.self from congrArg self hk
    have hchallenges : p.challenges = t.challenges :=
      show p.header.challenges = t.header.challenges from congrArg challenges hk
    exact ⟨fun e he => hcoded.envs e (henvs e he), fun id hid => hcoded.removed id (hremoved id hid), hmesh ▸ hcoded.mesh,
      hself ▸ hcoded.self, hchallenges ▸ hcoded.challenges⟩
  · have hmesh : p.mesh = none := congrArg mesh hk
    have hself : p.self = none := congrArg self hk
    have hchallenges : p.challenges = none := congrArg challenges hk
    exact ⟨fun e he => hcoded.envs e (henvs e he), fun id hid => hcoded.removed id (hremoved id hid), hmesh ▸ rfl,
      hself ▸ rfl, hchallenges ▸ rfl⟩

theorem State.apply_error {s : State T} {t : Option (Table T)} {e : String} (h : (s.apply t).2 = .error e) :
    ∃ kept, (s.apply t).1 = { s with parts := kept } := by
  cases t with
  | none => exact ⟨s.parts, rfl⟩
  | some t =>
    by_cases haccepts : s.Accepts t
    · rw [haccepts.apply_eq, State.take] at h
      split_ifs at h
    · obtain ⟨hwhole, hseq⟩ := not_or.1 haccepts
      rw [State.apply, if_neg hwhole]
      cases hparts : s.parts with
      | none =>
        rw [hparts] at hseq
        exact ⟨s.parts, congrArg Prod.fst (if_pos hseq)⟩
      | some q =>
        rw [hparts] at hseq
        exact ⟨none, congrArg Prod.fst (if_pos hseq)⟩

theorem State.message_more (s : State T) (t : Table T) : (s.message t).more = t.more := by
  rw [State.message]
  split_ifs
  · rfl
  · split <;> rfl

/-- A table that can be coded is split. Its parts hold its items in order; one that takes more than the
limit holds one item at most, and one without items is of a table without items. A state that accepts the table is left
as it is by all
parts but the last, apart from those it keeps, and ends as with the table at once, further in the
sequence. A message that is refused changes nothing but what is kept. -/
theorem split_arrives_whole (C : Codec T) (t : Table T) (limit : ℤ) (hmore : t.more = false) :
    (∀ n, codedSize C t = .ok n → ∃ parts, split C t limit = .ok parts) ∧
    (∀ parts, split C t limit = .ok parts →
      parts.flatMap envs = t.envs ∧ parts.flatMap removed = t.removed ∧
      (∀ p ∈ parts, ∃ n, codedSize C p = .ok n ∧ (p.envs.length + p.removed.length ≤ 1 ∨ (n : ℤ) ≤ limit)) ∧
      (∀ p ∈ parts, p.envs.length + p.removed.length = 0 → t.envs = [] ∧ t.removed = []) ∧
      ∀ (s s' : State T) (m : Option (Table T)), s.apply (some t) = (s', .ok m) →
        (∀ ps, ps <+: parts → ps ≠ parts → ∃ kept, s.applyAll ps = some { s with parts := kept }) ∧
        s.applyAll parts = some { s' with seq := t.seq + UInt64.ofNat (parts.length - 1) }) ∧
    ∀ (s : State T) (t' : Option (Table T)) (e : String), (s.apply t').2 = .error e →
      ∃ kept, (s.apply t').1 = { s with parts := kept } := by
  refine ⟨fun n hn => ⟨_, (coded_of_codedSize hn).split_eq limit⟩, fun parts hparts => ?_, fun s t' e => State.apply_error⟩
  obtain ⟨pre, last, rfl, hcarries, hsmall, hfilled⟩ := splits_of_split hmore hparts
  have hcoded := coded_of_split hparts
  refine ⟨hcarries.envs, hcarries.removed, fun p hp => ?_, hfilled, fun s s' m happly => ?_⟩
  · obtain ⟨n, hn, hle⟩ := (hcarries.coded hcoded hp).codedSize_le
    exact ⟨n, hn, (hsmall p hp).imp_right fun hestimate => (Int.ofNat_le.2 hle).trans hestimate⟩
  · have haccepts := State.accepts_of_apply happly
    obtain ⟨hkept, hall⟩ := hcarries.applyAll hmore haccepts
    have hs' : s' = s.put (s.message t) := by
      have hdone : ¬(s.message t).more = true := by
        rw [s.message_more, hmore]
        decide
      rw [haccepts.apply_eq, State.take, if_neg hdone] at happly
      exact (congrArg Prod.fst happly).symm
    refine ⟨fun ps hps hne => hkept ps ?_, ?_⟩
    · rcases prefix_concat_iff.1 hps with heq | hpre
      · exact absurd heq hne
      · exact hpre
    · rw [hall, hs', length_append, length_singleton, Nat.add_sub_cancel]

/-! Three environments in two parts -/

def sampleKinds : Kinds := ⟨Unit, Unit, Unit, Unit, Unit⟩

def sampleCodec : Codec sampleKinds where
  envSize _ := .ok 50
  idSize _ := .ok 20
  meshSize _ := .ok 200
  selfSize _ := .ok 30
  challengesSize _ := .ok 30
  timeSize _ := 37
  timeSize_le _ := le_rfl

def sampleTable (more : Bool) (ids : List String) (mesh : Option Unit) : Table sampleKinds :=
  ⟨1, true, more, ids.map (⟨·, ()⟩), [], mesh, none, none, ()⟩

def sampleState : State sampleKinds := ⟨0, some fun _ => none, (), (), [], none⟩

theorem split_arrives_whole_in_two :
    ∃ parts s', split sampleCodec (sampleTable false ["a", "b", "c"] none) 300 = .ok parts ∧ parts.length = 2 ∧
      sampleState.apply (some (sampleTable false ["a", "b", "c"] none)) =
        (s', .ok (some (sampleTable false ["a", "b", "c"] none))) ∧
      sampleState.applyAll parts = some { s' with seq := 2 } := by
  have h := split_arrives_whole sampleCodec (sampleTable false ["a", "b", "c"] none) 300 rfl
  exact ⟨_, _, rfl, rfl, rfl, ((h.2.1 _ rfl).2.2.2.2 sampleState _ _ rfl).2⟩

/-- A mesh that is larger than the limit goes alone in a part above it, and the parts of a table
that itself says more is to come are complete where the table is not. -/
theorem mesh_alone_is_large_and_open_table_completes :
    (∃ p, split sampleCodec (sampleTable false [] (some ())) 100 = .ok [p] ∧ p.envs = [] ∧ p.removed = [] ∧
      ∃ n : ℕ, codedSize sampleCodec p = .ok n ∧ 100 < n) ∧
    ∃ parts s' s'', split sampleCodec (sampleTable true ["a", "b", "c"] none) 300 = .ok parts ∧
      sampleState.apply (some (sampleTable true ["a", "b", "c"] none)) = (s', .ok none) ∧ s'.seq = 0 ∧
      sampleState.applyAll parts = some s'' ∧ s''.seq = 2 :=
  ⟨⟨_, rfl, rfl, rfl, _, rfl, by decide⟩, _, _, _, rfl, rfl, rfl, rfl, rfl⟩

end FeOS.Wire

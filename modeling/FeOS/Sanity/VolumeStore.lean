import FeOS.Spec.PodVolumes

/-! Whom the volumes' records name, and what each change of the store does to it: it touches only the
volumes of no pod and those of the pod that it is for. -/

namespace FeOS.Volumes

open Function List Store

def owner (m : VolumeId → Option Volume) (id : VolumeId) : Option PodId := (m id).bind Volume.pod

structure Owns (st : Store) (pod : PodId) (id : VolumeId) : Prop where
  map : owner st.map id = some pod
  kept : owner st.kept id = some pod

def Spare (st : Store) (pod : PodId) (id : VolumeId) : Prop := ∀ q, owner st.map id = some q → q = pod

structure Touch (r : Option PodId) (ids : List VolumeId) (st st' : Store) : Prop where
  or_same : ∀ id, (st'.map id = st.map id ∧ st'.kept id = st.kept id) ∨
    ((owner st.map id = none ∨ owner st.map id = r) ∧ (owner st'.map id = none ∨ owner st'.map id = r))
  claimed : ∀ id p, r = some p → owner st'.map id = some p → owner st.map id = some p ∨ id ∈ ids
  kept : ∀ id p, r = some p → owner st'.map id = some p →
    owner st'.kept id = some p ∨ (owner st.map id = some p ∧ st'.kept id = st.kept id)

variable {st st' : Store} {r : Option PodId} {pod p : PodId} {id : VolumeId} {ids keep : List VolumeId} {fs : Failures}
  {l : List (VolumeId × Volume)}

variable {m : VolumeId → Option Volume} {v : Volume}

theorem owner_eq_some : owner m id = some pod ↔ ∃ v, m id = some v ∧ v.pod = some pod :=
  Option.bind_eq_some_iff

theorem owner_of_eq {m' : VolumeId → Option Volume} (h : m' id = m id) : owner m' id = owner m id := by
  unfold owner
  rw [h]

theorem owner_of_some (h : m id = some v) : owner m id = v.pod := by
  unfold owner
  rw [h]
  rfl

theorem Touch.refl (r : Option PodId) (ids : List VolumeId) (st : Store) : Touch r ids st st :=
  ⟨fun _ => .inl ⟨rfl, rfl⟩, fun _ _ _ h => .inl h, fun _ _ _ h => .inr ⟨h, rfl⟩⟩

theorem Touch.owns (h : Touch r ids st st') (ho : Owns st p id) (hr : r ≠ some p) : Owns st' p id := by
  rcases h.or_same id with ⟨hm, hk⟩ | ⟨hbefore, -⟩
  · exact ⟨(owner_of_eq hm).trans ho.map, (owner_of_eq hk).trans ho.kept⟩
  · rw [ho.map] at hbefore
    rcases hbefore with hn | hn
    · cases hn
    · exact absurd hn.symm hr

theorem Touch.spare (h : Touch r ids st st') (hs : Spare st p id) (hr : r = some p ∨ id ∉ ids) : Spare st' p id := by
  intro q hq
  rcases h.or_same id with ⟨hm, -⟩ | ⟨-, hafter⟩
  · exact hs q ((owner_of_eq hm).symm.trans hq)
  · rw [hq] at hafter
    rcases hafter with hn | hn
    · cases hn
    · rcases h.claimed id q hn.symm hq with hown | hmem
      · exact hs q hown
      · rcases hr with hr | hr
        · exact Option.some.inj (hn.trans hr)
        · exact absurd hmem hr

theorem Touch.owner_iff (h : Touch r ids st st') (hr : r ≠ some p) :
    owner st'.map id = some p ↔ owner st.map id = some p := by
  rcases h.or_same id with ⟨hm, -⟩ | ⟨hbefore, hafter⟩
  · rw [owner_of_eq hm]
  · constructor
    · intro ho
      rcases hafter with hn | hn
      · exact nomatch hn.symm.trans ho
      · exact absurd (hn.symm.trans ho) hr
    · intro ho
      rcases hbefore with hn | hn
      · exact nomatch hn.symm.trans ho
      · exact absurd (hn.symm.trans ho) hr

/-! Writes -/

theorem saves_at (fs : Failures) (l : List (VolumeId × Volume)) (st : Store) (id : VolumeId) :
    ((saves fs l st).1.map id = st.map id ∧
        ((saves fs l st).1.kept id = st.kept id ∨ ∃ v, (id, v) ∈ l ∧ (saves fs l st).1.kept id = some v)) ∨
      ((∃ v, (id, v) ∈ l ∧ (saves fs l st).1.map id = some v) ∧ ∃ v, (id, v) ∈ l ∧ (saves fs l st).1.kept id = some v) := by
  induction l generalizing st with
  | nil => exact .inl ⟨rfl, .inl rfl⟩
  | cons e l ih =>
    obtain ⟨id', v⟩ := e
    unfold saves
    have later {m : VolumeId → Option Volume} (h : ∃ v, (id, v) ∈ l ∧ m id = some v) :
        ∃ v', (id, v') ∈ (id', v) :: l ∧ m id = some v' := by
      obtain ⟨v', hv', hm⟩ := h
      exact ⟨v', mem_cons_of_mem _ hv', hm⟩
    cases fs.write id' with
    | fails took =>
      cases took with
      | false => exact .inl ⟨rfl, .inl rfl⟩
      | true =>
        refine .inl ⟨rfl, ?_⟩
        by_cases hid : id = id'
        · subst hid
          exact .inr ⟨v, mem_cons_self, update_self ..⟩
        · exact .inl (update_of_ne hid ..)
    | ok =>
      have h := ih (st.put id' (some v))
      by_cases hid : id = id'
      · subst hid
        have hm : (st.put id (some v)).map id = some v := update_self ..
        have hk : (st.put id (some v)).kept id = some v := update_self ..
        rw [hm, hk] at h
        rcases h with ⟨hmap, hkept⟩ | ⟨hmap, hkept⟩
        · refine .inr ⟨⟨v, mem_cons_self, hmap⟩, ?_⟩
          rcases hkept with hkept | hkept
          · exact ⟨v, mem_cons_self, hkept⟩
          · exact later hkept
        · exact .inr ⟨later hmap, later hkept⟩
      · have hm : (st.put id' (some v)).map id = st.map id := update_of_ne hid ..
        have hk : (st.put id' (some v)).kept id = st.kept id := update_of_ne hid ..
        rw [hm, hk] at h
        rcases h with ⟨hmap, hkept⟩ | ⟨hmap, hkept⟩
        · exact .inl ⟨hmap, hkept.imp_right later⟩
        · exact .inr ⟨later hmap, later hkept⟩

def WritesFor (st : Store) (pod : PodId) (l : List (VolumeId × Volume)) : Prop :=
  ∀ e ∈ l, e.2.pod = some pod ∧ (owner st.map e.1 = none ∨ owner st.map e.1 = some pod)

theorem owner_of_written (hl : WritesFor st pod l) (h : ∃ v, (id, v) ∈ l ∧ m id = some v) :
    owner m id = some pod ∧ (owner st.map id = none ∨ owner st.map id = some pod) ∧ id ∈ l.map Prod.fst := by
  obtain ⟨v, hv, hm⟩ := h
  obtain ⟨hpod, hbefore⟩ := hl _ hv
  exact ⟨(owner_of_some hm).trans hpod, hbefore, mem_map.2 ⟨_, hv, rfl⟩⟩

theorem saves_touch (fs : Failures) (hl : WritesFor st pod l) : Touch (some pod) (l.map Prod.fst) st (saves fs l st).1 := by
  refine ⟨fun id => ?_, fun id p hp ho => ?_, fun id p hp ho => ?_⟩
  · rcases saves_at fs l st id with ⟨hm, hk | hk⟩ | ⟨hm, -⟩
    · exact .inl ⟨hm, hk⟩
    · obtain ⟨-, hbefore, -⟩ := owner_of_written hl hk
      exact .inr ⟨hbefore, by rwa [owner_of_eq hm]⟩
    · obtain ⟨hafter, hbefore, -⟩ := owner_of_written hl hm
      exact .inr ⟨hbefore, .inr hafter⟩
  · rcases saves_at fs l st id with ⟨hm, -⟩ | ⟨hm, -⟩
    · exact .inl ((owner_of_eq hm).symm.trans ho)
    · exact .inr (owner_of_written hl hm).2.2
  · cases hp
    rcases saves_at fs l st id with ⟨hm, hk | hk⟩ | ⟨-, hk⟩
    · exact .inr ⟨(owner_of_eq hm).symm.trans ho, hk⟩
    · exact .inl (owner_of_written hl hk).1
    · exact .inl (owner_of_written hl hk).1

theorem saves_owns (hl : WritesFor st pod l) (ho : Owns st pod id) : Owns (saves fs l st).1 pod id := by
  rcases saves_at fs l st id with ⟨hm, hk | hk⟩ | ⟨hm, hk⟩
  · exact ⟨(owner_of_eq hm).trans ho.map, (owner_of_eq hk).trans ho.kept⟩
  · exact ⟨(owner_of_eq hm).trans ho.map, (owner_of_written hl hk).1⟩
  · exact ⟨(owner_of_written hl hm).1, (owner_of_written hl hk).1⟩

theorem WritesFor.put (hl : WritesFor st pod l) {id : VolumeId} (hv : v.pod = some pod) :
    WritesFor (st.put id (some v)) pod l := by
  intro e he
  refine ⟨(hl e he).1, ?_⟩
  by_cases hid : e.1 = id
  · right
    rw [hid]
    exact (owner_of_some (update_self ..)).trans hv
  · have hm : (st.put id (some v)).map e.1 = st.map e.1 := update_of_ne hid ..
    rw [owner_of_eq hm]
    exact (hl e he).2

theorem saves_ok (hl : WritesFor st pod l) (h : (saves fs l st).2 = true) (hid : id ∈ l.map Prod.fst) :
    Owns (saves fs l st).1 pod id := by
  fun_induction saves fs l st with
  | case1 => cases hid
  | case2 id' v l st hw ih =>
    have hv := (hl _ mem_cons_self).1
    have hrest : WritesFor (st.put id' (some v)) pod l := WritesFor.put (fun e he => hl e (mem_cons_of_mem _ he)) hv
    rcases mem_cons.1 hid with heq | hid
    · subst heq
      exact saves_owns hrest ⟨(owner_of_some (update_self ..)).trans hv, (owner_of_some (update_self ..)).trans hv⟩
    · exact ih hrest h hid
  | case3 => cases h

theorem saves_no_failures (l : List (VolumeId × Volume)) (st : Store) : (saves [] l st).2 = true := by
  induction l generalizing st with
  | nil => rfl
  | cons e l ih => exact ih _

/-! Claims -/

theorem claims_spec (h : st.claims pod ids = some l) :
    (∀ e ∈ l, e.2.pod = some pod ∧ owner st.map e.1 = none ∧ e.1 ∈ ids) ∧
      ∀ id ∈ ids, owner st.map id = some pod ∨ id ∈ l.map Prod.fst := by
  fun_induction claims st pod ids generalizing l with
  | case1 =>
    cases h
    exact ⟨nofun, nofun⟩
  | case2 | case5 => cases h
  | case3 id ids v hm hp ih =>
    obtain ⟨l', hl', rfl⟩ := Option.map_eq_some_iff.1 h
    obtain ⟨hnew, hall⟩ := ih hl'
    exact ⟨forall_mem_cons.2 ⟨⟨rfl, (owner_of_some hm).trans hp, mem_cons_self⟩,
        fun e he => (hnew e he).imp_right (.imp_right (mem_cons_of_mem _))⟩,
      forall_mem_cons.2 ⟨.inr mem_cons_self, fun id' hid' => (hall id' hid').imp_right (mem_cons_of_mem _)⟩⟩
  | case4 id ids v hm hp ih =>
    obtain ⟨hnew, hall⟩ := ih h
    exact ⟨fun e he => (hnew e he).imp_right (.imp_right (mem_cons_of_mem _)),
      forall_mem_cons.2 ⟨.inl ((owner_of_some hm).trans hp), hall⟩⟩

theorem claims_writesFor (h : st.claims pod ids = some l) : WritesFor st pod l := fun e he =>
  ⟨((claims_spec h).1 e he).1, .inl ((claims_spec h).1 e he).2.1⟩

theorem claim_touch (pod : PodId) (ids : List VolumeId) (fs : Failures) (st : Store) :
    Touch (some pod) ids st (st.claim pod ids fs).1 := by
  unfold claim
  cases hc : st.claims pod ids with
  | none => exact .refl ..
  | some l =>
    have h := saves_touch fs (claims_writesFor hc)
    refine ⟨h.or_same, fun id p hp ho => (h.claimed id p hp ho).imp_right fun hid => ?_, h.kept⟩
    obtain ⟨e, he, rfl⟩ := mem_map.1 hid
    exact ((claims_spec hc).1 e he).2.2

theorem claim_owns (ho : Owns st p id) : Owns (st.claim pod ids fs).1 p id := by
  unfold claim
  cases hc : st.claims pod ids with
  | none => exact ho
  | some l =>
    rcases saves_at fs l st id with ⟨hm, hk | ⟨v, hv, -⟩⟩ | ⟨⟨v, hv, -⟩, -⟩
    · exact ⟨(owner_of_eq hm).trans ho.map, (owner_of_eq hk).trans ho.kept⟩
    · exact nomatch ho.map.symm.trans ((claims_spec hc).1 _ hv).2.1
    · exact nomatch ho.map.symm.trans ((claims_spec hc).1 _ hv).2.1

theorem claim_ok (h : (st.claim pod ids fs).2 = true)
    (hkept : ∀ id, owner st.map id = some pod → owner st.kept id = some pod)
    (hid : id ∈ ids) : Owns (st.claim pod ids fs).1 pod id := by
  unfold claim at h ⊢
  cases hc : st.claims pod ids with
  | none =>
    simp [hc] at h
  | some l =>
    simp only [hc] at h ⊢
    rcases (claims_spec hc).2 id hid with hown | hmem
    · exact saves_owns (claims_writesFor hc) ⟨hown, hkept id hown⟩
    · exact saves_ok (claims_writesFor hc) h hmem

theorem claim_refused (h : (st.claim pod ids []).2 = false) : (st.claim pod ids []).1 = st := by
  unfold claim at h ⊢
  cases hc : st.claims pod ids with
  | none => rfl
  | some l =>
    rw [hc] at h
    simp [saves_no_failures] at h

/-! Releases -/

theorem release_map (pod : PodId) (keep : List VolumeId) (fs : Failures) (st : Store) (id : VolumeId) :
    (st.release pod keep fs).map id =
      (st.map id).map fun v => if Lets pod keep id v ∧ fs.write id = .ok then v.free else v := rfl

theorem release_owner (pod : PodId) (keep : List VolumeId) (st : Store) (id : VolumeId) :
    owner (st.release pod keep []).map id =
      if owner st.map id = some pod ∧ id ∉ keep then none else owner st.map id := by
  have hw : Failures.write [] id = .ok := rfl
  unfold owner
  rw [release_map]
  cases hm : st.map id with
  | none => rfl
  | some v =>
    simp only [Option.map_some, Option.bind_some, Lets, hw, and_true]
    split_ifs <;> rfl

theorem release_kept_of_not {v : Option Volume} (hm : st.map id = v) (h : ∀ v' ∈ v, ¬ Lets pod keep id v') :
    (st.release pod keep fs).kept id = st.kept id := by
  unfold release
  simp only [hm]
  cases v with
  | none => rfl
  | some v' => exact if_neg fun hl => h v' rfl hl.1

theorem release_same (hid : owner st.map id ≠ some pod ∨ id ∈ keep) :
    (st.release pod keep fs).map id = st.map id ∧ (st.release pod keep fs).kept id = st.kept id := by
  have hlets : ∀ v ∈ st.map id, ¬ Lets pod keep id v := by
    rintro v hv ⟨hpod, hkeep⟩
    rcases hid with hid | hid
    · exact hid ((owner_of_some hv).trans hpod)
    · exact hkeep hid
  refine ⟨?_, release_kept_of_not rfl hlets⟩
  rw [release_map]
  cases hm : st.map id with
  | none => rfl
  | some v =>
    rw [Option.map_some, if_neg fun h => hlets v hm h.1]

theorem release_touch (pod : PodId) (keep : List VolumeId) (st : Store) :
    Touch (some pod) [] st (st.release pod keep []) := by
  refine ⟨fun id => ?_, fun id p hp ho => .inl ?_, fun id p hp ho => .inr ?_⟩
  · by_cases hown : owner st.map id = some pod
    · refine .inr ⟨.inr hown, ?_⟩
      rw [release_owner]
      split_ifs
      · exact .inl rfl
      · exact .inr hown
    · exact .inl (release_same (.inl hown))
  · rw [release_owner] at ho
    split_ifs at ho
    exact ho
  · cases hp
    rw [release_owner] at ho
    split_ifs at ho with hg
    have hkeep : id ∈ keep := by
      by_contra hn
      exact hg ⟨ho, hn⟩
    exact ⟨ho, (release_same (.inr hkeep)).2⟩

/-! Take-overs -/

theorem takeOver_writesFor (h : ∀ id ∈ ids, ∀ had ∈ st.map id, had.restorable pod = true) :
    WritesFor st pod (ids.map fun id => (id, ⟨some pod, .checkpointed⟩)) := by
  intro e he
  obtain ⟨id, hid, rfl⟩ := mem_map.1 he
  refine ⟨rfl, ?_⟩
  cases hm : st.map id with
  | none =>
    left
    unfold owner
    rw [hm]
    rfl
  | some v =>
    rw [owner_of_some hm]
    have := h id hid v hm
    unfold Volume.restorable at this
    rw [decide_eq_true_iff] at this
    exact this.elim .inr fun h => .inl h.1

theorem map_fst_takeOver : (ids.map fun id => ((id, ⟨some pod, .checkpointed⟩) : VolumeId × Volume)).map Prod.fst = ids := by
  rw [map_map]
  exact map_id ids

theorem takeOver_touch (pod : PodId) (ids : List VolumeId) (fs : Failures) (st : Store) :
    Touch (some pod) ids st (st.takeOver pod ids fs).1 := by
  unfold takeOver
  split_ifs with h
  · have := saves_touch fs (takeOver_writesFor h)
    rwa [map_fst_takeOver] at this
  · exact .refl ..

theorem takeOver_owns (ho : Owns st pod id) : Owns (st.takeOver pod ids fs).1 pod id := by
  unfold takeOver
  split_ifs with h
  · exact saves_owns (takeOver_writesFor h) ho
  · exact ho

theorem takeOver_ok (h : (st.takeOver pod ids fs).2 = true) (hid : id ∈ ids) : Owns (st.takeOver pod ids fs).1 pod id := by
  unfold takeOver at h ⊢
  split_ifs at h ⊢ with hr
  refine saves_ok (takeOver_writesFor hr) h ?_
  rwa [map_fst_takeOver]

/-! Disks that are opened, and volumes that are created and deleted -/

theorem opened_writesFor (hm : st.map id = some v) (hp : v.pod = some pod) :
    WritesFor st pod [(id, { v with state := .attached })] := by
  intro e he
  cases mem_singleton.1 he
  exact ⟨hp, .inr ((owner_of_some hm).trans hp)⟩

theorem opened_touch (fs : Failures) (ho : owner st.map id = some pod) : Touch (some pod) [] st (st.opened id fs).1 := by
  obtain ⟨v, hm, hp⟩ := owner_eq_some.1 ho
  unfold opened
  simp only [hm]
  split_ifs
  · exact .refl ..
  · have h := saves_touch fs (opened_writesFor hm hp)
    refine ⟨h.or_same, fun id' p hp' ho' => .inl ?_, h.kept⟩
    rcases h.claimed id' p hp' ho' with hown | hid
    · exact hown
    · cases mem_singleton.1 hid
      cases hp'
      exact ho

theorem opened_owns (fs : Failures) (ho : owner st.map id = some pod) {id' : VolumeId} (ho' : Owns st pod id') :
    Owns (st.opened id fs).1 pod id' := by
  obtain ⟨v, hm, hp⟩ := owner_eq_some.1 ho
  unfold opened
  simp only [hm]
  split_ifs
  · exact ho'
  · exact saves_owns (opened_writesFor hm hp) ho'

theorem put_touch {v : Option Volume} (ho : owner st.map id = none) (hv : ∀ v' ∈ v, v'.pod = none) :
    Touch none [] st (st.put id v) := by
  refine ⟨fun id' => ?_, nofun, nofun⟩
  by_cases hid : id' = id
  · subst hid
    refine .inr ⟨.inl ho, .inl ?_⟩
    have hm : (st.put id' v).map id' = v := update_self ..
    cases v with
    | none =>
      unfold owner
      rw [hm]
      rfl
    | some v' =>
      rw [owner_of_some hm]
      exact hv v' rfl
  · exact .inl ⟨update_of_ne hid .., update_of_ne hid ..⟩

theorem create_touch (fs : Failures) (hm : st.map id = none) :
    Touch none [] st (saves fs [(id, ⟨none, .available⟩)] st).1 := by
  have ho : owner st.map id = none := by
    unfold owner
    rw [hm]
    rfl
  unfold saves
  cases fs.write id with
  | ok => exact put_touch ho fun v hv => by cases hv; rfl
  | fails took =>
    cases took with
    | false => exact .refl ..
    | true =>
      refine ⟨fun id' => ?_, nofun, nofun⟩
      by_cases hid : id' = id
      · subst hid
        exact .inr ⟨.inl ho, .inl ho⟩
      · exact .inl ⟨rfl, update_of_ne hid ..⟩

end FeOS.Volumes

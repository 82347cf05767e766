import FeOS.Lib.Keyed
import FeOS.Sanity.VolumeCalls

/-! The invariant of the volumes holds after every step: the moves of each call, and feosd's restart. -/

namespace FeOS.Volumes

open List Function Store

variable {w w' : World} {call : Call} {c : ℕ} {pod : PodId} {volumes : List VolumeId} {fs : Failures}

theorem Inv.others (h : Inv w) (hc : w.calls[c]? = some call) {c' : ℕ} {call' : Call} (hc' : w.calls[c']? = some call')
    (hne : c' ≠ c) :
    (∀ p, call'.about = some p → call.about ≠ some p) ∧
      (call'.isRestore = true → ∀ id ∈ call'.volumes, id ∉ call.volumes) := by
  have hap := h.apart c' c call' call hne hc' hc
  refine ⟨fun p hp hp' => hap (.inl ⟨?_, hp.trans hp'.symm⟩), fun hr id hid hid' => hap (.inr ⟨.inl hr, id, hid, hid'⟩)⟩
  rw [hp]
  rfl

variable {st : Store} {m : Move} {token : ℕ} {id : VolumeId} {pods : List Pod}

theorem Inv.setStore_of_call (h : Inv w) (hc : w.calls[c]? = some call) {ids : List VolumeId}
    (habout : call.about = some pod)
    (ht : Touch (some pod) ids w.store st) (hids : ∀ id ∈ ids, id ∈ call.volumes)
    (howns : w.pods pod ≠ none → ∀ id, Owns w.store pod id → Owns st pod id) (hok : CallOk (w.setStore st) call) :
    Inv (w.setStore st) := by
  refine h.setStore ht (fun p hp => ?_) fun c' call' hc' => ?_
  · cases hp
    exact howns
  · by_cases hne : c' = c
    · subst hne
      cases hc'.symm.trans hc
      exact .inl hok
    · obtain ⟨hother, hvol⟩ := h.others hc hc' hne
      refine .inr ⟨fun p hp hr => hother p hp (habout.trans hr), fun hr id hid hmem => hvol hr id hid (hids id hmem)⟩

/-! Creates -/

theorem Inv.create (h : Inv w) {stage : CreateStage} (hc : w.calls[c]? = some (.create pod volumes stage))
    (hcalm : Calm w (.move c m)) (hs : w.stepCreate c pod volumes stage m = some w') : Inv w' := by
  have hok := h.calls c _ hc
  have hconf {stage' : CreateStage} (other : Call) (hother : Conflict (.create pod volumes stage') other) :
      Conflict (.create pod volumes stage) other := hother
  have hclaimed (hok : CallOk w (.create pod volumes .claiming)) (hc : w.calls[c]? = some (.create pod volumes .claiming)) :
      Inv (w.setStore (w.store.claim pod volumes []).1) :=
    h.setStore_of_call hc rfl (claim_touch pod volumes [] w.store) (fun _ hid => hid) (fun _ _ ho => claim_owns ho) hok
  revert hs
  fun_cases World.stepCreate w c pod volumes stage m <;> rintro ⟨⟩
  case case1 fs st hcl =>
    cases (show fs = [] from hcalm)
    have hset := hclaimed hok hc
    rw [hcl] at hset
    refine hset.setCall hc ⟨hok, fun id hid => ?_⟩ hconf nofun nofun
    have hown := claim_ok (by rw [hcl]) (fun id ho => ?_) hid
    · rwa [hcl] at hown
    -- nothing of the pod's is left in the map alone
    rcases h.left id pod ho with hk | hp | ⟨c1, token, hc1⟩
    · exact hk
    · exact absurd hok hp
    · refine absurd (.inl ⟨rfl, rfl⟩) (h.apart c c1 _ _ ?_ hc hc1)
      rintro rfl
      cases hc.symm.trans hc1
  case case2 fs st hcl =>
    cases (show fs = [] from hcalm)
    have hset := hclaimed hok hc
    rw [hcl] at hset
    exact hset.endCall hc nofun
  case case3 hp => exact nomatch hp.symm.trans hok.1
  case case4 =>
    refine (h.endCall hc nofun).addPod hok.1 (fun _ => hok.2) (fun _ => rfl) fun c' call' hc' habout => ?_
    rcases set_get hc' with ⟨-, rfl⟩ | ⟨hne, hc'⟩
    · cases habout
    · exact absurd rfl ((h.others hc hc' hne).1 pod habout)
  case case5 => exact h.setCall hc ⟨hok.1, rfl⟩ hconf nofun nofun
  case case6 keep fs =>
    cases (show fs = [] from hcalm)
    have hset : Inv (w.setStore (w.store.release pod keep [])) :=
      h.setStore_of_call hc rfl (release_touch pod keep w.store) nofun (fun hp => absurd hok.1 hp) hok
    exact hset.endCall hc nofun

/-! Deletes -/

theorem Inv.forget (h : Inv w) (hc : w.calls[c]? = some (.delete pod token .locked)) :
    Inv ((w.forgetPod pod).setCall c (.delete pod token .forgotten)) := by
  obtain ⟨vols, p, hp, htoken, -⟩ := h.calls c _ hc
  have hpods (q : PodId) (x : Pod) (hx : (w.forgetPod pod).pods q = some x) : q ≠ pod ∧ w.pods q = some x := by
    rcases update_cases hx with ⟨-, ⟨⟩⟩ | hx
    exact hx
  have hother (q : PodId) (hne : q ≠ pod) : (w.forgetPod pod).pods q = w.pods q := update_of_ne hne ..
  have hlen : c < w.calls.length := (List.getElem?_eq_some_iff.1 hc).1
  refine ⟨?_, ?_, ?_, ?_, ?_, ?_, ?_, ?_, ?_⟩
  · intro q x hx
    exact h.owns q x (hpods q x hx).2
  · intro q x hx
    exact h.podId q x (hpods q x hx).2
  · intro q x hx
    exact h.up q x (hpods q x hx).2
  · intro q hq
    obtain ⟨hq, hne⟩ := mem_filter.1 hq
    obtain ⟨x, hx, hrest⟩ := h.kept q hq
    exact ⟨x, (hother _ (of_decide_eq_true hne)).trans hx, hrest⟩
  · exact h.nodup.sublist (filter_sublist.map _)
  · intro c' call' hc'
    rcases set_get hc' with ⟨-, rfl⟩ | ⟨hne, hc'⟩
    · exact update_self ..
    · have hok := h.calls c' call' hc'
      refine hok.stays (fun q hq => .of_eq (hother q ?_)) (fun _ _ _ _ ho => ho) fun _ _ _ _ _ hs => hs
      rintro rfl
      by_cases habout : call'.about = some q
      · exact (h.others hc hc' hne).1 q habout rfl
      · -- a bring-up of the pod would have its lock
        cases call' with
        | bringUp pod' token' stage =>
          cases hq
          have htoken' : token' = token := by
            cases stage with
            | check left =>
              obtain ⟨x, hx, ht, -⟩ := hok
              cases hx.symm.trans hp
              exact ht.symm.trans htoken
            | «open» id left =>
              obtain ⟨x, hx, ht, -⟩ := hok
              cases hx.symm.trans hp
              exact ht.symm.trans htoken
          have h1 := h.locks c' _ token' hc' rfl
          have h2 := h.locks c _ token hc rfl
          rw [htoken', h2] at h1
          exact hne (Option.some.inj h1).symm
        | create | delete | restore | ended => exact habout hq
  · intro c' call' t hc' hl
    rcases set_get hc' with ⟨rfl, rfl⟩ | ⟨-, hc'⟩
    · exact h.locks c' _ t hc hl
    · exact h.locks c' call' t hc' hl
  · intro c1 c2 a b hne ha hb hab
    rcases set_get ha with ⟨rfl, rfl⟩ | ⟨-, ha'⟩
    · rcases set_get hb with ⟨rfl, -⟩ | ⟨-, hb'⟩
      · exact hne rfl
      · exact h.apart c1 c2 _ b hne hc hb' hab
    · rcases set_get hb with ⟨rfl, rfl⟩ | ⟨-, hb'⟩
      · exact h.apart c1 c2 a _ hne ha' hc hab
      · exact h.apart c1 c2 a b hne ha' hb' hab
  · intro id q hid
    by_cases hq : q = pod
    · subst hq
      refine .inr (.inr ⟨c, token, ?_⟩)
      show (w.calls.set c _)[c]? = _
      rw [getElem?_set_self hlen]
    · rcases h.left id q hid with hk | hx | ⟨c1, t, hc1⟩
      · exact .inl hk
      · refine .inr (.inl ?_)
        show (w.forgetPod pod).pods q ≠ none
        rwa [hother q hq]
      · refine .inr (.inr ⟨c1, t, ?_⟩)
        show (w.calls.set c _)[c1]? = _
        rw [getElem?_set_ne, hc1]
        rintro rfl
        cases hc.symm.trans hc1

theorem Inv.delete (h : Inv w) {stage : DeleteStage} (hc : w.calls[c]? = some (.delete pod token stage))
    (hcalm : Calm w (.move c m)) (hs : w.stepDelete c pod token stage m = some w') : Inv w' := by
  revert hs
  fun_cases World.stepDelete w c pod token stage m <;> rintro ⟨⟩
  case case1 => exact h.forget hc
  case case2 | case3 => exact h.endCall hc nofun
  case case4 fs =>
    cases (show fs = [] from hcalm)
    have hgone : w.pods pod = none := h.calls c _ hc
    have hset : Inv (w.setStore (w.store.release pod [] [])) :=
      h.setStore_of_call hc rfl (release_touch pod [] w.store) nofun (fun hp => absurd hgone hp) hgone
    refine hset.endCall hc fun q t heq id => ?_
    cases heq
    show owner (w.store.release pod [] []).map id ≠ some pod
    rw [release_owner]
    split_ifs with hg
    · exact nofun
    · exact fun ho => hg ⟨ho, not_mem_nil⟩

/-! Restores -/

theorem spare_of_restorable (h : w.restorable pod id = true) : Spare w.store pod id := by
  intro q hq
  obtain ⟨v, hm, hv⟩ := owner_eq_some.1 hq
  unfold World.restorable at h
  rw [hm] at h
  rcases of_decide_eq_true h with hp | ⟨hp, -⟩
  · exact Option.some.inj (hv.symm.trans hp)
  · exact nomatch hv.symm.trans hp

inductive RestoreMoved (w : World) (c : ℕ) (pod : PodId) (volumes : List VolumeId) : RestoreStage → World → Prop
  | ended {stage} : RestoreMoved w c pod volumes stage (w.endCall c)
  | adopted {left left'} : RestoreMoved w c pod volumes (.adopt left)
      (w.setCall c (.restore pod volumes (.adopt left')))
  | toRecord {left} : RestoreMoved w c pod volumes (.adopt left) (w.setCall c (.restore pod volumes .record))
  | known {p} (hp : w.pods pod = some p) :
      RestoreMoved w c pod volumes .record (w.setCall c (.restore pod volumes .lock))
  | recorded (hp : w.pods pod = none) :
      RestoreMoved w c pod volumes .record
        ((w.addPod ⟨pod, w.fresh, volumes, .hibernated, false⟩).setCall c (.restore pod volumes .lock))
  | locked {p} (hp : w.pods pod = some p) (hfree : w.locks p.token = none) :
      RestoreMoved w c pod volumes .lock ((w.takeLock p.token c).setCall c
        (.restore pod p.volumes (.check p.token p.volumes)))
  | checked {token : ℕ} {id : VolumeId} {left} (hr : w.restorable pod id = true) :
      RestoreMoved w c pod volumes (.check token (id :: left)) (w.setCall c (.restore pod volumes (.check token left)))
  | toRemove {token : ℕ} : RestoreMoved w c pod volumes (.check token [])
      (w.setCall c (.restore pod volumes (.remove token volumes)))
  | removed {token : ℕ} {id : VolumeId} {left} :
      RestoreMoved w c pod volumes (.remove token (id :: left)) (w.setCall c (.restore pod volumes (.remove token left)))
  | toTake {token : ℕ} : RestoreMoved w c pod volumes (.remove token []) (w.setCall c (.restore pod volumes (.take token)))
  | taken {token : ℕ} {fs : Failures} {st : Store} {p} (hto : w.store.takeOver pod volumes fs = (st, true))
      (hp : w.pods pod = some p) :
      RestoreMoved w c pod volumes (.take token)
        (((w.setStore st).update { p with held := true } false).setCall c (.restore pod volumes (.place token)))
  | refused {token : ℕ} {fs : Failures} {st : Store} (hto : w.store.takeOver pod volumes fs = (st, false)) :
      RestoreMoved w c pod volumes (.take token) ((w.setStore st).endCall c)
  | placed {token : ℕ} {saved p} (hp : w.pods pod = some p) :
      RestoreMoved w c pod volumes (.place token) ((w.update { p with up := .pending } saved).endCall c)

variable {stage : RestoreStage} {p : Pod} {v : Volume} {cut : Option ℕ} {cutFs : Failures}

theorem Inv.setUp (h : Inv w) (hp : w.pods pod = some p) (hheld : p.held = true) (up : Up) (saved : Bool) :
    Inv (w.update { p with up := up } saved) :=
  h.update hp (show ({ p with up := up } : Pod).id = pod from h.podId pod p hp) rfl rfl (fun hh => hh) (h.owns pod p hp)
    (fun _ => hheld) saved

theorem stepRestore_moved (hs : w.stepRestore c pod volumes stage m = some w') :
    RestoreMoved w c pod volumes stage w' := by
  revert hs
  fun_cases World.stepRestore w c pod volumes stage m <;> intro hs <;> try cases hs
  case case1 =>
    split_ifs
    · exact .adopted
    · exact .ended
  case case2 => exact .toRecord
  case case3 hp => exact .known hp
  case case4 hp => exact .recorded hp
  case case5 | case6 => exact .ended
  case case7 hp hfree =>
    split_ifs
    · exact .locked hp hfree
    · exact .ended
  case case9 =>
    split_ifs with hr
    · exact .checked hr
    · exact .ended
  case case10 => exact .toRemove
  case case11 => exact .removed
  case case12 => exact .toTake
  case case13 hto =>
    obtain ⟨p, hp, rfl⟩ := Option.map_eq_some_iff.1 hs
    exact .taken hto hp
  case case14 hto => exact .refused hto
  case case15 =>
    obtain ⟨p, hp, rfl⟩ := Option.map_eq_some_iff.1 hs
    exact .placed hp
  case case16 => exact .ended

theorem Inv.takeOver (h : Inv w) (hc : w.calls[c]? = some (.restore pod volumes (.take token))) (fs : Failures) :
    Inv (w.setStore (w.store.takeOver pod volumes fs).1) := by
  obtain ⟨hthere, hspare⟩ := h.calls c _ hc
  have ht := takeOver_touch pod volumes fs w.store
  exact h.setStore_of_call hc rfl ht (fun _ hid => hid) (fun _ _ ho => takeOver_owns ho)
    ⟨hthere, fun id hid => ht.spare (hspare id hid) (.inl rfl)⟩

theorem Inv.taken (h : Inv w) (hc : w.calls[c]? = some (.restore pod volumes (.take token)))
    (hto : w.store.takeOver pod volumes fs = (st, true)) (hp : w.pods pod = some p) :
    Inv (((w.setStore st).update { p with held := true } false).setCall c (.restore pod volumes (.place token))) := by
  obtain ⟨⟨q, hq, htoken, hvolumes⟩, -⟩ := h.calls c _ hc
  cases hq.symm.trans hp
  have hset := h.takeOver hc fs
  have hown (id : VolumeId) (hid : id ∈ p.volumes) : Owns st pod id := by
    rw [hvolumes] at hid
    have htrue : (w.store.takeOver pod volumes fs).2 = true := by rw [hto]
    have := takeOver_ok htrue hid
    rwa [hto] at this
  rw [hto] at hset
  have hid : p.id = pod := h.podId pod p hp
  have hupd : Inv ((w.setStore st).update { p with held := true } false) :=
    hset.update hp (show ({ p with held := true } : Pod).id = pod from hid) rfl rfl (fun _ => rfl) (fun _ => hown)
      (fun _ => rfl) false
  refine hupd.setCall hc ⟨{ p with held := true }, ?_, htoken, hvolumes, rfl⟩ (fun _ h => h)
    (fun t hl => h.locks c _ t hc hl) nofun
  show Function.update w.pods p.id _ pod = _
  rw [hid, update_self]

theorem Inv.restore (h : Inv w) (hc : w.calls[c]? = some (.restore pod volumes stage))
    (hs : w.stepRestore c pod volumes stage m = some w') : Inv w' := by
  have hok := h.calls c _ hc
  have hlock (t : ℕ) (ht : (Call.restore pod volumes stage).lock = some t) : w.locks t = some c := h.locks c _ t hc ht
  cases stepRestore_moved hs with
  | ended => exact h.endCall hc nofun
  | adopted => exact h.setCall hc hok (fun _ hother => hother) nofun nofun
  | toRecord => exact h.setCall hc hok (fun _ hother => hother) nofun nofun
  | known hp => exact nomatch hp.symm.trans hok
  | recorded hgone =>
    have hlock : Inv (w.setCall c (.restore pod volumes .lock)) :=
      h.setCall hc (fun p hp => nomatch hgone.symm.trans hp) (fun _ hother => hother) nofun nofun
    refine hlock.addPod hgone nofun (fun hne => absurd rfl hne) fun c' call' hc' habout => ?_
    rcases set_get hc' with ⟨-, rfl⟩ | ⟨hne, hc'⟩
    · rfl
    · exact absurd rfl ((h.others hc hc' hne).1 pod habout)
  | @locked p hp hfree =>
    have hvolumes : p.volumes = volumes := hok p hp
    refine (h.takeLock hfree c).setCall hc ⟨⟨p, hp, rfl, rfl⟩, fun id hid hleft => absurd hid hleft⟩ ?_
      (fun t ht => ?_) nofun
    · rw [hvolumes]
      exact fun _ hother => hother
    · cases ht
      exact update_self ..
  | @checked token id left hr =>
    refine h.setCall hc ⟨hok.1, fun id' hid' hleft => ?_⟩ (fun _ hother => hother) hlock nofun
    by_cases heq : id' = id
    · subst heq
      exact spare_of_restorable hr
    · exact hok.2 id' hid' fun hmem => (mem_cons.1 hmem).elim heq hleft
  | toRemove =>
    exact h.setCall hc ⟨hok.1, fun id hid => hok.2 id hid not_mem_nil, fun _ hid => hid⟩ (fun _ hother => hother) hlock nofun
  | removed =>
    exact h.setCall hc ⟨hok.1, hok.2.1, fun id hid => hok.2.2 id (mem_cons_of_mem _ hid)⟩
      (fun _ hother => hother) hlock nofun
  | toTake => exact h.setCall hc ⟨hok.1, hok.2.1⟩ (fun _ hother => hother) hlock nofun
  | taken hto hp => exact h.taken hc hto hp
  | @refused token fs st hto =>
    have hset := h.takeOver hc fs
    rw [hto] at hset
    exact hset.endCall hc nofun
  | @placed token saved p hp =>
    obtain ⟨q, hq, htoken, hvolumes, hheld⟩ := hok
    cases hq.symm.trans hp
    exact (h.setUp hp hheld .pending saved).endCall hc nofun

/-! Bring-ups -/

theorem Inv.opened (h : Inv w) (ho : owner w.store.map id = some pod) (fs : Failures) :
    Inv (w.setStore (w.store.opened id fs).1) := by
  have ht := opened_touch fs ho
  have howns (q : PodId) (id' : VolumeId) (ho' : Owns w.store q id') : Owns (w.store.opened id fs).1 q id' := by
    by_cases hq : q = pod
    · subst hq
      exact opened_owns fs ho ho'
    · exact ht.owns ho' fun heq => hq (Option.some.inj heq).symm
  refine h.setStore ht (fun q _ _ id' ho' => howns q id' ho') fun c' call' hc' => .inl ?_
  exact (h.calls c' call' hc').stays (fun q _ => .of_eq rfl) (fun q _ id' _ ho' => howns q id' ho')
    fun _ q _ id' _ hs => ht.spare hs (.inr not_mem_nil)

theorem Inv.bringUp (h : Inv w) {stage : BringUpStage} (hc : w.calls[c]? = some (.bringUp pod token stage))
    (hs : w.stepBringUp c pod token stage m = some w') : Inv w' := by
  have hok := h.calls c _ hc
  have hconf {stage' : BringUpStage} (other : Call) (hother : Conflict (.bringUp pod token stage') other) :
      Conflict (.bringUp pod token stage) other := hother
  have hlock {stage' : BringUpStage} (t : ℕ) (ht : (Call.bringUp pod token stage').lock = some t) : w.locks t = some c := by
    cases ht
    exact h.locks c _ token hc rfl
  revert hs
  fun_cases World.stepBringUp w c pod token stage m <;> intro hs <;> try cases hs
  case case1 id left =>
    obtain ⟨p, hp, htoken, hheld, hleft⟩ := hok
    split_ifs
    · refine h.setCall hc ⟨p, hp, htoken, hheld, ?_, ?_⟩ hconf hlock nofun
      · exact hleft id mem_cons_self
      · exact fun id' hid' => hleft id' (mem_cons_of_mem _ hid')
    · exact h.endCall hc nofun
  case case2 id left fs st hop =>
    obtain ⟨p, hp, htoken, hheld, hid, hleft⟩ := hok
    have hset := h.opened (h.owns pod p hp hheld id hid).map fs
    rw [hop] at hset
    exact hset.setCall hc ⟨p, hp, htoken, hheld, hleft⟩ hconf hlock nofun
  case case3 id left fs st hop =>
    obtain ⟨p, hp, htoken, hheld, hid, hleft⟩ := hok
    have hset := h.opened (h.owns pod p hp hheld id hid).map fs
    rw [hop] at hset
    exact hset.endCall hc nofun
  case case4 saved =>
    obtain ⟨p, hp, htoken, hheld, hleft⟩ := hok
    obtain ⟨p', hp', rfl⟩ := Option.map_eq_some_iff.1 hs
    cases hp.symm.trans hp'
    exact (h.setUp hp hheld .running saved).endCall hc nofun
  case case5 => exact h.endCall hc nofun

/-! feosd's restart -/

theorem Inv.cutStore (h : Inv w) (hp : w.pods pod = some p) (hheld : p.held = true) (hid : id ∈ p.volumes)
    (cut : Option ℕ) (fs : Failures) : owner (w.cutStore cut fs).kept id = some pod := by
  have ho := h.owns pod p hp hheld id hid
  have hgone {q : PodId} (hq : w.pods q = none) : owner w.store.map id ≠ some q := by
    intro hown
    cases ho.map.symm.trans hown
    exact nomatch hq.symm.trans hp
  unfold World.cutStore
  cases hcut : cut.bind fun c => w.calls[c]? with
  | none => exact ho.kept
  | some call =>
    obtain ⟨c, -, hc⟩ := Option.bind_eq_some_iff.1 hcut
    have hok := h.calls c call hc
    show owner (w.writes fs call).kept id = some pod
    fun_cases World.writes w fs call
    case case1 => exact (claim_owns ho).kept
    case case2 => exact (owner_of_eq (release_same (.inl (hgone hok.1))).2).trans ho.kept
    case case3 => exact (owner_of_eq (release_same (.inl (hgone hok))).2).trans ho.kept
    case case4 q volumes _ =>
      by_cases hq : q = pod
      · subst hq
        exact (takeOver_owns ho).kept
      · exact ((takeOver_touch q volumes fs w.store).owns ho fun heq => hq (Option.some.inj heq)).kept
    case case5 q _ id' _ =>
      obtain ⟨x, hx, -, hxh, hid', -⟩ := hok
      have hown := (h.owns q x hx hxh id' hid').map
      by_cases hq : q = pod
      · subst hq
        exact (opened_owns fs hown ho).kept
      · exact ((opened_touch fs hown).owns ho fun heq => hq (Option.some.inj heq)).kept
    case case6 => exact ho.kept

theorem agreed_of_mem (id : VolumeId) (hp : p ∈ pods) (hv : v.pod = some p.id) :
    agreed pods id v = v := by
  have hany : (pods.any fun x => decide (x.id = p.id)) = true := any_eq_true.2 ⟨p, hp, decide_eq_true rfl⟩
  have hlet : letGo pods v = v := by
    unfold letGo
    rw [hv, Option.all_some, if_pos hany]
  unfold agreed claimAgain
  simp only [hlet, hv]

theorem agreed_pod (hv : (agreed pods id v).pod = some pod) :
    ∃ p ∈ pods, p.id = pod := by
  unfold agreed claimAgain at hv
  split at hv
  · rename_i x _ hx
    exact ⟨x, mem_of_find?_eq_some hx, Option.some.inj hv⟩
  · unfold letGo at hv
    split_ifs at hv with hall
    · rw [hv, Option.all_some] at hall
      obtain ⟨p, hp, hid⟩ := any_eq_true.1 hall
      exact ⟨p, hp, of_decide_eq_true hid⟩
    · cases hv

theorem restart_there {fs : Failures}
    (hs : w.step (.restart cut cutFs pods fs) = some w') (hid : owner w'.store.map id = some pod) :
    w'.pods pod ≠ none := by
  simp only [World.step] at hs
  split_ifs at hs with hperm
  cases hs
  obtain ⟨v, hm, hpod⟩ := owner_eq_some.1 hid
  obtain ⟨v₀, -, rfl⟩ := Option.map_eq_some_iff.1 hm
  obtain ⟨p, hp, hpid⟩ := agreed_pod hpod
  intro hnone
  have := find?_eq_none.1 hnone p hp
  exact this (decide_eq_true hpid)

theorem Inv.restart (h : Inv w) {fs : Failures}
    (hs : w.step (.restart cut cutFs pods fs) = some w') : Inv w' := by
  have hthere {id : VolumeId} {q : PodId} (hid : owner w'.store.map id = some q) : w'.pods q ≠ none := restart_there hs hid
  simp only [World.step] at hs
  split_ifs at hs with hperm
  cases hs
  have hnodup : (pods.map Pod.id).Nodup := (hperm.map Pod.id).nodup_iff.2 h.nodup
  have hfind (q : PodId) (p : Pod) : (pods.find? fun x => decide (x.id = q)) = some p ↔ p ∈ pods ∧ p.id = q :=
    Keyed.look_eq_some hnodup
  have hkept (p : Pod) (hp : p ∈ pods) : ∃ x, w.pods p.id = some x ∧ x.volumes = p.volumes ∧ x.held = p.held ∧
      (p.up ≠ .hibernated → p.held = true) := h.kept p (hperm.mem_iff.1 hp)
  refine ⟨fun q p hp hheld id hid => ?_, fun q p hp => ?_, fun q p hp => ?_, fun p hp => ?_, hnodup, nofun, nofun, nofun,
    fun _ _ hid => .inr (.inl (hthere hid))⟩
  · obtain ⟨hmem, rfl⟩ := (hfind q p).1 hp
    obtain ⟨x, hx, hv, hh, -⟩ := hkept p hmem
    have hown := h.cutStore hx (hh.trans hheld) (hv ▸ hid) cut cutFs
    obtain ⟨v, hm, hpod⟩ := owner_eq_some.1 hown
    have hsame := agreed_of_mem id hmem hpod
    refine ⟨owner_eq_some.2 ⟨v, ?_, hpod⟩, owner_eq_some.2 ⟨v, ?_, hpod⟩⟩
    · show ((w.cutStore cut cutFs).kept id).map _ = some v
      rw [hm, Option.map_some, hsame]
    · show ((w.cutStore cut cutFs).kept id).map _ = some v
      rw [hm, Option.map_some, hsame, ite_self]
  · exact ((hfind q p).1 hp).2
  · obtain ⟨hmem, -⟩ := (hfind q p).1 hp
    obtain ⟨-, -, -, -, hup⟩ := hkept p hmem
    exact hup
  · obtain ⟨-, -, -, -, hup⟩ := hkept p hp
    exact ⟨p, (hfind p.id p).2 ⟨hp, rfl⟩, rfl, rfl, hup⟩

/-! Every step -/

theorem Inv.setStore_none (h : Inv w) (ht : Touch none [] w.store st) : Inv (w.setStore st) :=
  h.setStore ht nofun fun _ _ _ => .inr ⟨fun _ _ => nofun, fun _ _ _ => not_mem_nil⟩

theorem Inv.move (h : Inv w) (hcalm : Calm w (.move c m)) (hs : w.step (.move c m) = some w') : Inv w' := by
  obtain ⟨call, hc, hs⟩ := Option.bind_eq_some_iff.1 hs
  cases call with
  | create pod volumes stage => exact h.create hc hcalm hs
  | delete pod token stage => exact h.delete hc hcalm hs
  | restore pod volumes stage => exact h.restore hc hs
  | bringUp pod token stage => exact h.bringUp hc hs
  | ended => cases hs

theorem Inv.step (h : Inv w) {e : Event} (hcalm : Calm w e) (hs : w.step e = some w') : Inv w' := by
  revert hs
  fun_cases World.step w e <;> intro hs <;> try cases hs
  case case1 id fs hm => exact h.setStore_none (create_touch fs hm)
  case case3 id hm =>
    refine h.setStore_none (put_touch ?_ nofun)
    obtain ⟨v, hv, hp⟩ := (Option.any_eq_true _ _).1 hm
    exact (owner_of_some hv).trans (of_decide_eq_true hp)
  case case5 hp => exact h.begin hp hcalm nofun
  case case7 pod p hp hfree =>
    refine (h.takeLock hfree w.calls.length).begin ⟨p.volumes, p, hp, rfl,
      rfl⟩ (fun other hother hconf => hcalm other hother hconf)
      fun t ht => ?_
    cases ht
    exact update_self ..
  case case10 hp =>
    have hcalm' : Clear w (w.restoring _ _) := hcalm
    simp only [World.restoring, hp] at hcalm'
    refine h.begin (fun x hx => ?_) hcalm' nofun
    cases hx.symm.trans hp
    rfl
  case case11 hp =>
    have hcalm' : Clear w (w.restoring _ _) := hcalm
    simp only [World.restoring, hp] at hcalm'
    exact h.begin hp hcalm' nofun
  case case12 pod p hp hg =>
    have hheld : p.held = true := h.up pod p hp (by rw [hg.1]; decide)
    refine (h.takeLock hg.2 w.calls.length).begin ⟨p, hp, rfl, hheld, fun _ hid => hid⟩
      (fun other _ hconf => ?_) fun t ht => ?_
    · -- a bring-up is in no call's way
      rcases hconf with ⟨hn, -⟩ | ⟨-, id, hid, -⟩
      · cases hn
      · cases hid
    · cases ht
      exact update_self ..
  case case15 => exact h.move hcalm hs
  case case16 pod up saved p hp hg => exact h.setUp hp (h.up pod p hp hg.1) up saved
  case case19 hperm => exact h.restart (if_pos hperm)

theorem Inv.empty : Inv .empty :=
  ⟨nofun, nofun, nofun, nofun, nodup_nil, nofun, nofun, nofun, nofun⟩

end FeOS.Volumes

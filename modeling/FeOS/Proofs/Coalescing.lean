import FeOS.Spec.WatchBatch

/-! What coalescing leaves out. A name that changes twice in a window and then gets an event of a kind that the window
has had already ends up wrong at the client; without that, the emitted events tell what all events do. -/

namespace FeOS.Watch

open List Function Runs

abbrev Key := String × String

/-- Which of the names are there. -/
abbrev View := Key → Bool

def FileKind.present : FileKind → Bool
  | .created | .modified | .attrib | .movedTo => true
  | .deleted | .movedFrom => false

/-- How a client reads paths again: which names that concerns, a directory's own among them. -/
structure Client where
  covers : String → Key → Bool
  own : ∀ dir name, covers dir (dir, name) = true

variable {c : Client} {p p' : Pump} {b : Batch} {key : Key}

def Client.reread (c : Client) (paths : List String) (now view : View) : View :=
  fun key => if paths.any (c.covers · key) then now key else view key

def Client.replay (c : Client) (now view : View) (e : Event) : View := match e.kind with
  | .file kind => update view (e.dir, e.name) kind.present
  | .stale => c.reread e.stalePaths now view

def Frame.batch : Frame → Option (List Event)
  | .events l => some l
  | _ => none

/-- What a turn receives, if anything that is pushed. -/
def Turn.msg : Turn → Msg
  | .recv (some msg) => msg
  | _ => .endOfStream

/-- A stream with what is known of it: the file events since the last batch, those of the windows of the emitted
batches, the names as all pushed events tell, and as the client has them. -/
structure Watched where
  pump : Pump := {}
  window : List (Key × FileKind) := []
  closed : List (List (Key × FileKind) × List Event) := []
  now : View
  view : View

def Watched.emitted (w : Watched) : List Event := (w.pump.out.filterMap Frame.batch).flatten

def Client.pushed (c : Client) (w : Watched) (found : View) : Msg → List (Key × FileKind) × View
  | .fs kind dir name _ _ => (w.window ++ [((dir, name), kind)], update w.now (dir, name) kind.present)
  | .stale paths => (w.window, c.reread paths found w.now)
  | _ => (w.window, w.now)

/-- A turn of the pump; a batch that goes out is the window's, and is replayed. -/
def Watched.step (c : Client) (w : Watched) (e : Turn × View) : Option Watched :=
  (w.pump.step e.1).map fun pump =>
    let (window, now) := c.pushed w e.2 e.1.msg
    match ((pump.out.drop w.pump.out.length).filterMap Frame.batch).head? with
    | some events => ⟨pump, [], w.closed ++ [(window, events)], now, events.foldl (c.replay now) w.view⟩
    | none => ⟨pump, window, w.closed, now, w.view⟩

/-- An event is emitted, or a stale one is that names its directory. -/
def Told (events : List Event) (x : Key × FileKind) : Prop :=
  (∃ e ∈ events, e.kind = .file x.2 ∧ (e.dir, e.name) = x.1) ∨ ∃ e ∈ events, e.kind = .stale ∧ x.1.1 ∈ e.stalePaths

structure Tells (b : Batch) (window : List (Key × FileKind)) : Prop where
  file : ∀ e ∈ b.pending, ∃ kind, e.kind = .file kind
  seen : ∀ dir name kind, (dir, name, kind) ∈ b.seen → ∃ e ∈ b.pending, e.kind = .file kind ∧ (e.dir, e.name) = (dir, name)
  window : ∀ x ∈ window, (x.1.1, x.1.2, x.2) ∈ b.seen

variable {window : List (Key × FileKind)} {now view found : View} {l : List Event} {t : Turn} {m : Msg}

theorem Tells.told (h : Tells b window) : ∀ x ∈ window, Told b.pending x := fun x hx =>
  .inl (h.seen _ _ _ (h.window x hx))

/-- The batch with what is pushed. -/
def Batch.after (b : Batch) : Msg → Batch
  | .fs kind dir name isDir cookie => (b.push kind dir name isDir cookie).1
  | .stale paths => b.stale paths
  | _ => b

def Batch.full (b : Batch) : Msg → Bool
  | .fs kind dir name isDir cookie => (b.push kind dir name isDir cookie).2
  | .stale _ => true
  | _ => false

theorem replay_file {e : Event} {kind : FileKind} (h : e.kind = .file kind) :
    c.replay now view e = update view (e.dir, e.name) kind.present := by
  rw [Client.replay, h]

theorem foldl_replay_congr (now' : View) (h : ∀ e ∈ l, ∃ kind, e.kind = .file kind) :
    l.foldl (c.replay now) view = l.foldl (c.replay now') view := by
  refine foldl_ext _ _ _ fun v e he => ?_
  obtain ⟨kind, hkind⟩ := h e he
  rw [replay_file hkind, replay_file hkind]

theorem foldl_replay_of_not_mem (h : ∀ e ∈ l, ∃ kind, e.kind = .file kind) (hkey : key.1 ∉ l.map Event.dir) :
    l.foldl (c.replay now) view key = view key := by
  induction l generalizing view with
  | nil => rfl
  | cons e l ih =>
    rw [map_cons, mem_cons, not_or] at hkey
    obtain ⟨kind, hkind⟩ := h e mem_cons_self
    rw [foldl_cons, ih (fun e he => h e (mem_cons_of_mem _ he)) hkey.2, replay_file hkind]
    exact update_of_ne (fun heq => hkey.1 (congrArg Prod.fst heq)) ..

/-- A file event that the window has had comes when the name is as it says. -/
def Calm (w : Watched) (e : Turn × View) : Prop := match e.1.msg with
  | .fs kind dir name _ _ => (dir, name, kind) ∈ w.pump.batch.seen → w.now (dir, name) = kind.present
  | _ => True

variable {w w' : Watched}

theorem Tells.after (h : Tells w.pump.batch w.window) :
    (w.pump.batch.full m = false → Tells (w.pump.batch.after m) (c.pushed w found m).1) ∧
      ∀ x ∈ (c.pushed w found m).1, Told (w.pump.batch.after m).pending x := by
  cases m with
  | fs kind dir name isDir cookie =>
    simp only [Batch.full, Batch.push, Batch.after, Client.pushed]
    split_ifs with hseen hlen
    · have h' : Tells w.pump.batch (w.window ++ [((dir, name), kind)]) :=
        ⟨h.file, h.seen, forall_mem_append.2 ⟨h.window, forall_mem_singleton.2 hseen⟩⟩
      exact ⟨fun _ => h', h'.told⟩
    · refine ⟨by rintro ⟨⟩, fun x hx => .inr ⟨_, mem_append_right _ (mem_singleton_self _), rfl, mem_dedup.2 ?_⟩⟩
      rw [map_append, mem_append]
      rcases mem_append.1 hx with hx | hx
      · obtain ⟨e, he, -, heq⟩ := h.seen _ _ _ (h.window x hx)
        exact .inl (mem_map.2 ⟨e, he, congrArg Prod.fst heq⟩)
      · rw [mem_singleton.1 hx]
        exact .inr (mem_singleton_self _)
    · have h' : Tells ⟨w.pump.batch.pending ++ [⟨0, .file kind, dir, name, isDir, cookie, []⟩],
          (dir, name, kind) :: w.pump.batch.seen, w.pump.batch.nextId⟩ (w.window ++ [((dir, name), kind)]) := by
        refine ⟨forall_mem_append.2 ⟨h.file, forall_mem_singleton.2 ⟨kind, rfl⟩⟩, fun d n k hmem => ?_,
          forall_mem_append.2 ⟨fun x hx => mem_cons_of_mem _ (h.window x hx), forall_mem_singleton.2 mem_cons_self⟩⟩
        rcases mem_cons.1 hmem with heq | hmem
        · cases heq
          exact ⟨_, mem_append_right _ (mem_singleton_self _), rfl, rfl⟩
        · obtain ⟨e, he, hk⟩ := h.seen d n k hmem
          exact ⟨e, mem_append_left _ he, hk⟩
      exact ⟨fun _ => h', h'.told⟩
  | stale paths =>
    refine ⟨by rintro ⟨⟩, fun x hx => ?_⟩
    obtain ⟨e, he, hk⟩ := h.seen _ _ _ (h.window x hx)
    exact .inl ⟨e, mem_append_left _ he, hk⟩
  | _ => exact ⟨fun _ => h, h.told⟩

theorem Tells.settles (h : Tells w.pump.batch w.window) (hcalm : Calm w (t, found))
    (hagree : w.pump.batch.pending.foldl (c.replay w.now) w.view = w.now) :
    (w.pump.batch.after t.msg).pending.foldl (c.replay (c.pushed w found t.msg).2) w.view = (c.pushed w found t.msg).2 := by
  have hnow : ∀ now', w.pump.batch.pending.foldl (c.replay now') w.view = w.now := fun now' =>
    (foldl_replay_congr w.now h.file).trans hagree
  rw [Calm] at hcalm
  generalize t.msg = m at hcalm ⊢
  cases m with
  | fs kind dir name isDir cookie =>
    simp only [Batch.push, Batch.after, Client.pushed]
    split_ifs with hseen hlen
    · rw [hnow, ← hcalm hseen, update_eq_self]
    · -- the names of all directories with pending events are read again
      funext key
      simp only [Batch.stale, nil_append, foldl_cons, foldl_nil, Client.replay, Client.reread]
      split_ifs with hcov
      · rfl
      · have hdir : ¬ (key.1 ∈ w.pump.batch.pending.map Event.dir ∨ key.1 = dir) := fun hmem =>
          hcov (any_eq_true.2 ⟨key.1, mem_dedup.2 (by simpa using hmem), c.own key.1 key.2⟩)
        rw [not_or] at hdir
        rw [update_of_ne fun heq => hdir.2 (congrArg Prod.fst heq), ← hagree]
        exact (foldl_replay_of_not_mem h.file hdir.1).symm
    · rw [foldl_append, hnow]
      rfl
  | stale paths =>
    rw [Batch.after, Batch.stale, foldl_append, hnow]
    funext key
    simp only [foldl_cons, foldl_nil, Client.replay, Client.reread, Client.pushed]
    split_ifs <;> rfl
  | _ => exact hagree

theorem Pump.flush_deaf (hc : p.caller = false) : p.flush.1.caller = false ∧ p.flush.1.out = p.out := by
  unfold flush send
  split_ifs <;> simp_all

theorem Pump.flushed_deaf (hc : p.caller = false) : p.flushed.caller = false ∧ p.flushed.out = p.out := by
  unfold flushed
  split_ifs <;> exact flush_deaf hc

theorem Pump.step_deaf (h : p.step t = some p') (hc : p.caller = false) : p'.caller = false ∧ p'.out = p.out := by
  revert h
  fun_cases Pump.step p t <;> rintro ⟨⟩
  case case1 msg hrun =>
    fun_cases Pump.recv p msg
    case case2 | case4 => exact flushed_deaf hc
    case case5 done hrun =>
      obtain ⟨hcaller, hout⟩ := flushed_deaf hc
      cases done <;> simp [answer, send, hcaller, hout]
    case case6 => exact flushed_deaf hc
    case case7 => exact flush_deaf hc
    all_goals exact ⟨hc, rfl⟩
  case case3 => exact flushed_deaf hc
  case case5 => exact ⟨rfl, rfl⟩

/-- What a turn comes to while the caller listens: the batch `b` stays, if it is not full, or it goes out. -/
def Pump.Sends (p : Pump) (b : Batch) (full : Bool) (p' : Pump) : Prop :=
  p'.caller = true ∧ ∃ more, p'.out = p.out ++ more ∧ (full = false ∧ more.filterMap Frame.batch = [] ∧ p'.batch = b ∨
    more.filterMap Frame.batch = [b.take.1] ∧ p'.batch = b.take.2)

theorem Batch.nextId_after (b : Batch) (m : Msg) : (b.after m).nextId = b.nextId := by
  cases m with
  | fs =>
    simp only [after, push]
    split_ifs <;> rfl
  | _ => rfl

theorem Batch.ne_nil_of_full (h : b.full m = true) : (b.after m).pending ≠ [] := by
  cases m with
  | fs =>
    simp only [full, after, push] at h ⊢
    split_ifs at h ⊢
    simp [stale]
  | stale => simp [after, stale]
  | _ => cases h

theorem Pump.flush_heard (hc : p.caller = true) : p.flush = (if p.batch.pending = [] then p
    else { p with batch := p.batch.take.2, out := p.out ++ [.events p.batch.take.1] }, true) := by
  unfold flush send
  split_ifs <;> rfl

theorem Pump.flush_sends {full : Bool} (hc : p.caller = true) (hfull : full = true → p.batch.pending ≠ []) :
    p.Sends p.batch full p.flush.1 := by
  rw [flush_heard hc]
  split_ifs with hp
  · exact ⟨hc, [], (append_nil _).symm, .inl ⟨Bool.eq_false_iff.2 fun h => hfull h hp, rfl, rfl⟩⟩
  · exact ⟨hc, [_], rfl, .inr ⟨rfl, rfl⟩⟩

theorem Pump.flushed_heard (hc : p.caller = true) : p.flushed = { p.flush.1 with deadline := false } := by
  rw [flushed, flush_heard hc, if_pos rfl]

theorem Pump.flushed_sends {full : Bool} (hc : p.caller = true) (hfull : full = true → p.batch.pending ≠ []) :
    p.Sends p.batch full p.flushed := by
  rw [flushed_heard hc]
  exact flush_sends hc hfull

theorem Pump.Sends.answer (h : p.Sends b false p') (done : Except String Reconciled) : p.Sends b false (p'.answer done) := by
  obtain ⟨hc, more, hout, hsent⟩ := h
  cases done <;> rw [Pump.answer, send, if_pos hc] <;>
    exact ⟨hc, more ++ [_], by rw [hout, append_assoc],
      by rwa [filterMap_append, show filterMap Frame.batch [_] = [] from rfl, append_nil]⟩

theorem Pump.step_heard (h : p.step t = some p') (hc : p.caller = true) :
    p'.caller = false ∧ p'.out = p.out ∨ p.Sends (p.batch.after t.msg) (p.batch.full t.msg) p' := by
  revert h
  fun_cases Pump.step p t <;> rintro ⟨⟩
  case case1 msg hrun =>
    refine .inr ?_
    fun_cases Pump.recv p msg
    case case2 kind dir name isDir cookie batch hnow =>
      exact flushed_sends (p := { p with batch := _ }) hc fun _ => Batch.ne_nil_of_full (m := .fs ..) hnow
    case case3 hnow => exact ⟨hc, [], (append_nil _).symm, .inl ⟨Bool.eq_false_iff.2 hnow, rfl, rfl⟩⟩
    case case4 paths => exact flushed_sends (p := { p with batch := _ }) hc fun _ => Batch.ne_nil_of_full (m := .stale _) rfl
    case case5 done _ => exact (flushed_sends hc (by rintro ⟨⟩)).answer done
    case case6 | case7 => first | exact flushed_sends hc (by rintro ⟨⟩) | exact flush_sends hc (by rintro ⟨⟩)
    all_goals exact ⟨hc, [], (append_nil _).symm, .inl ⟨rfl, rfl, rfl⟩⟩
  case case3 => exact .inr (flushed_sends hc (by rintro ⟨⟩))
  case case5 => exact .inl ⟨rfl, rfl⟩

theorem Pump.step_ack {done : Reconciled} (h : p.step (.recv (some (.subscribe (.ok done)))) = some p')
    (hc : p.caller = true) :
    p'.out.getLast? = some (.ack p'.batch.nextId done) ∧ p'.batch.pending = [] ∧ p'.caller = true := by
  rw [step] at h
  split_ifs at h with hrun
  cases h
  obtain ⟨hrun', hnone, hc'⟩ : p.flushed.running = true ∧ p.flushed.batch.pending = [] ∧ p.flushed.caller = true := by
    rw [flushed_heard hc, flush_heard hc]
    split_ifs with hp
    · exact ⟨hrun, hp, hc⟩
    · exact ⟨hrun, rfl, hc⟩
  rw [recv, if_pos hrun', Pump.answer, send, if_pos hc']
  exact ⟨getLast?_concat, hnone, hc'⟩

theorem map_id_stamp (n : ℕ) : (stamp n l).map Event.id = range' (n + 1) l.length := by
  induction l generalizing n with
  | nil => rfl
  | cons e l ih => rw [stamp, map_cons, ih, length_cons, range'_succ]

theorem length_stamp (n : ℕ) : (stamp n l).length = l.length := by
  rw [← length_map (f := Event.id), map_id_stamp, length_range']

theorem foldl_replay_stamp (n : ℕ) : (stamp n l).foldl (c.replay now) view = l.foldl (c.replay now) view := by
  induction l generalizing n view with
  | nil => rfl
  | cons e l ih => exact ih (n + 1)

theorem mem_stamp {e : Event} (n : ℕ) (h : e ∈ l) : ∃ id, { e with id } ∈ stamp n l := by
  induction l generalizing n with
  | nil => cases h
  | cons a l ih =>
    rcases mem_cons.1 h with rfl | h
    · exact ⟨n + 1, mem_cons_self⟩
    · obtain ⟨id, hid⟩ := ih (n + 1) h
      exact ⟨id, mem_cons_of_mem _ hid⟩

theorem Told.stamp {x : Key × FileKind} (n : ℕ) (h : Told l x) : Told (stamp n l) x := by
  rcases h with ⟨e, he, hx⟩ | ⟨e, he, hx⟩
  · exact .inl ((mem_stamp n he).imp' (fun id => { e with id }) fun _ hid => ⟨hid, hx⟩)
  · exact .inr ((mem_stamp n he).imp' (fun id => { e with id }) fun _ hid => ⟨hid, hx⟩)

structure Inv (w : Watched) : Prop where
  out : w.closed.map Prod.snd = w.pump.out.filterMap Frame.batch
  told : ∀ x ∈ w.closed, ∀ y ∈ x.1, Told x.2 y
  ids : w.emitted.map Event.id = range' 1 w.emitted.length
  live : w.pump.caller = true → Tells w.pump.batch w.window ∧ w.pump.batch.nextId = w.emitted.length

def Agrees (c : Client) (w : Watched) : Prop :=
  w.pump.caller = true → w.pump.batch.pending.foldl (c.replay w.now) w.view = w.now

theorem Watched.step_out {pump : Pump} {more : List Frame} (hp : w.pump.step t = some pump)
    (hout : pump.out = w.pump.out ++ more) : w.step c (t, found) = some (match (more.filterMap Frame.batch).head? with
      | some events => ⟨pump, [], w.closed ++ [((c.pushed w found t.msg).1, events)], (c.pushed w found t.msg).2,
          events.foldl (c.replay (c.pushed w found t.msg).2) w.view⟩
      | none => ⟨pump, (c.pushed w found t.msg).1, w.closed, (c.pushed w found t.msg).2, w.view⟩) := by
  rw [Watched.step, hp, Option.map_some, hout, drop_left]

theorem Watched.step_pump {e : Turn × View} (hs : w.step c e = some w') : w.pump.step e.1 = some w'.pump := by
  obtain ⟨pump, hp, rfl⟩ := Option.map_eq_some_iff.1 hs
  dsimp only
  split <;> exact hp

theorem Inv.silent (h : Inv w) {pump : Pump} (more : List Frame) (hout : pump.out = w.pump.out ++ more)
    (hmore : more.filterMap Frame.batch = []) {window : List (Key × FileKind)}
    (hlive : pump.caller = true → Tells pump.batch window ∧ pump.batch.nextId = w.emitted.length) :
    Inv ⟨pump, window, w.closed, now, view⟩ := by
  have hsame : pump.out.filterMap Frame.batch = w.pump.out.filterMap Frame.batch := by
    rw [hout, filterMap_append, hmore, append_nil]
  have hemitted : (⟨pump, window, w.closed, now, view⟩ : Watched).emitted = w.emitted := congrArg flatten hsame
  exact ⟨h.out.trans hsame.symm, h.told, hemitted ▸ h.ids, hemitted ▸ hlive⟩

theorem Inv.step (h : Inv w) (hs : w.step c (t, found) = some w') :
    Inv w' ∧ (Calm w (t, found) → Agrees c w → Agrees c w') := by
  obtain ⟨pump, hp, -⟩ := Option.map_eq_some_iff.1 hs
  have hdeaf (hc : pump.caller = false ∧ pump.out = w.pump.out) :
      Inv w' ∧ (Calm w (t, found) → Agrees c w → Agrees c w') := by
    obtain rfl := Option.some.inj ((Watched.step_out hp (hc.2.trans (append_nil _).symm)).symm.trans hs)
    refine ⟨h.silent [] (by rw [hc.2, append_nil]) rfl fun hc' => ?_, fun _ _ hc' => ?_⟩
    all_goals exact absurd hc' (ne_true_of_eq_false hc.1)
  cases hcaller : w.pump.caller with
  | false => exact hdeaf (Pump.step_deaf hp hcaller)
  | true =>
    obtain ⟨htells, hid⟩ := h.live hcaller
    obtain hc | ⟨hc, more, hout, ⟨hfull, hmore, hbatch⟩ | ⟨hmore, hbatch⟩⟩ := Pump.step_heard hp hcaller
    · exact hdeaf hc
    all_goals
      obtain rfl := Option.some.inj ((Watched.step_out hp hout).symm.trans hs)
      rw [hmore]
    · refine ⟨h.silent more hout hmore fun _ => ?_, fun hcalm hagree _ => ?_⟩
      · rw [hbatch]
        exact ⟨htells.after.1 hfull, (Batch.nextId_after ..).trans hid⟩
      · dsimp only [head?_nil]
        rw [hbatch]
        exact htells.settles hcalm (hagree hcaller)
    · dsimp only [head?_cons]
      have hsent : pump.out.filterMap Frame.batch = w.pump.out.filterMap Frame.batch ++
          [(w.pump.batch.after t.msg).take.1] := by
        rw [hout, filterMap_append, hmore]
      have hemitted : (pump.out.filterMap Frame.batch).flatten = w.emitted ++ (w.pump.batch.after t.msg).take.1 := by
        rw [hsent, flatten_append, flatten_singleton, Watched.emitted]
      have hnext := (Batch.nextId_after w.pump.batch t.msg).trans hid
      refine ⟨⟨?_, forall_mem_append.2 ⟨h.told, forall_mem_singleton.2 fun y hy => (htells.after.2 y hy).stamp _⟩, ?_,
        fun _ => ?_⟩, fun hcalm hagree _ => ?_⟩
      · rw [map_append, h.out, hsent]
        rfl
      · rw [Watched.emitted, hemitted, map_append, h.ids, Batch.take, map_id_stamp, hnext, length_append, length_stamp,
          add_comm, range'_append_1]
      · rw [Watched.emitted, hemitted, hbatch, length_append]
        refine ⟨⟨by rintro _ ⟨⟩, by rintro _ _ _ ⟨⟩, by rintro _ ⟨⟩⟩, ?_⟩
        rw [Batch.take, length_stamp, ← hnext]
      · rw [hbatch]
        exact (foldl_replay_stamp _).trans (htells.settles hcalm (hagree hcaller))

def Watched.start (view : View) : Watched := { now := view, view }

theorem inv_start : Inv (.start view) :=
  ⟨rfl, by rintro _ ⟨⟩, rfl, fun _ => ⟨⟨by rintro _ ⟨⟩, by rintro _ _ _ ⟨⟩, by rintro _ ⟨⟩⟩, rfl⟩⟩

/-- The ids are 1, 2, 3 and so on; an ack has the last of them, with nothing left to emit; what is left out of a window
was emitted in it or is to be read again. In every run whose turns are calm the client has what was pushed, whenever
nothing is pending. -/
theorem coalescing_tells_all (c : Client) (view : View) :
    (∀ w, Reach (Watched.step c) (fun _ _ => True) (.start view) w →
      w.emitted.map Event.id = range' 1 w.emitted.length ∧ w.closed.map Prod.snd = w.pump.out.filterMap Frame.batch ∧
      (∀ x ∈ w.closed, ∀ y ∈ x.1, Told x.2 y) ∧
      ∀ done found w', w.step c (.recv (some (.subscribe (.ok done))), found) = some w' → w.pump.caller = true →
        w'.pump.out.getLast? = some (.ack w'.emitted.length done) ∧ w'.pump.batch.pending = [] ∧ w'.window = []) ∧
    ∀ w, Reach (Watched.step c) Calm (.start view) w → w.pump.caller = true → w.pump.batch.pending = [] →
      w.view = w.now := by
  refine ⟨fun w hreach => ?_, fun w hreach hc hp => ?_⟩
  · have hinv : Inv w := hreach.invariant inv_start fun _ _ _ h _ hs => (h.step hs).1
    refine ⟨hinv.ids, hinv.out, hinv.told, fun done found w' hs hc => ?_⟩
    obtain ⟨hlast, hnone, hc'⟩ := Pump.step_ack (Watched.step_pump hs) hc
    obtain ⟨htells, hid⟩ := (hinv.step hs).1.live hc'
    refine ⟨hid ▸ hlast, hnone, eq_nil_iff_forall_not_mem.2 fun x hx => ?_⟩
    obtain ⟨e, he, -⟩ := htells.seen _ _ _ (htells.window x hx)
    simp [hnone] at he
  · have hagree : Inv w ∧ Agrees c w := hreach.invariant (I := fun w => Inv w ∧ Agrees c w) ⟨inv_start, fun _ => rfl⟩
      fun _ _ _ h hok hs => ⟨(h.1.step hs).1, (h.1.step hs).2 hok h.2⟩
    have h := hagree.2 hc
    rwa [hp] at h

instance lawfulBEq_seen : LawfulBEq (String × String × FileKind) := inferInstance

instance (w : Watched) (e : Turn × View) : Decidable (Calm w e) := by
  unfold Calm
  split <;> infer_instance

theorem coalescing_tells_all_made : ∃ c : Client, ∃ w, Reach (Watched.step c) Calm (.start fun _ => false) w ∧
    w.pump.caller = true ∧ w.pump.batch.pending = [] ∧ w.now ("/d", "f") = true ∧ w.view = w.now := by
  obtain ⟨w, hreach, hcaller, hpending, hnow⟩ :
      ∃ w, Reach (Watched.step ⟨fun path key => path = key.1, fun _ _ => decide_eq_true rfl⟩) Calm
        (.start fun _ => false) w ∧
        w.pump.caller = true ∧ w.pump.batch.pending = [] ∧ w.now ("/d", "f") = true :=
    exists_follow ([.created, .modified].map (fun kind => (.recv (some (.fs kind "/d" "f" false 0)), fun _ => false)) ++
        [(.sleep, fun _ => false)]) (by decide +kernel)
  exact ⟨_, w, hreach, hcaller, hpending, hnow, (coalescing_tells_all _ _).2 w hreach hcaller hpending⟩

def remade : List (Turn × View) :=
  [.created, .deleted, .created].map (fun kind => (.recv (some (.fs kind "/d" "f" false 0)), fun _ => false)) ++
    [(.sleep, fun _ => false)]

theorem remade_file_is_missed : ∃ c : Client, ∃ w, Reach (Watched.step c) (fun _ _ => True) (.start fun _ => false) w ∧
    w.pump.caller = true ∧ w.pump.batch.pending = [] ∧ w.now ("/d", "f") = true ∧ w.view ("/d", "f") = false :=
  ⟨⟨fun path key => path = key.1, fun _ _ => decide_eq_true rfl⟩, exists_follow remade (by decide +kernel)⟩

end FeOS.Watch

import FeOS.Spec.Routing

/-! A request goes to the longest of the routes that match it, and what the upstream gets of its path has no dot
segment, decoded up to twice. -/

namespace FeOS.Routing

open List

variable {E : Escaping} {p a b raw : Text} {parts ws : List Text}

/-! Dot segments -/

def HasDot (p : Text) : Prop := ∃ seg ∈ split p, seg = dot ∨ seg = dotDot

instance (p : Text) : Decidable (HasDot p) := inferInstanceAs (Decidable (∃ seg ∈ split p, seg = dot ∨ seg = dotDot))

def Clean (p : Text) : Prop := ∀ k ≤ 2, ¬ HasDot (lenientUnescape^[k] p)

theorem lenientUnescape_append (a b : Text) :
    lenientUnescape (a ++ 47 :: b) = lenientUnescape a ++ 47 :: lenientUnescape b := by
  fun_induction lenientUnescape a with
  | case1 c x y p h ih =>
    simp only [cons_append]
    rw [lenientUnescape, if_pos h, ih]
  | case2 c x y p h ih =>
    simp only [cons_append] at ih ⊢
    rw [lenientUnescape, if_neg h, ih]
  | case3 c p hshort ih =>
    have hstep : lenientUnescape (c :: (p ++ 47 :: b)) = c :: lenientUnescape (p ++ 47 :: b) := by
      match p with
      | [] => cases b <;> simp [lenientUnescape, isHex]
      | [x] => simp [lenientUnescape, isHex]
      | x :: y :: p => exact absurd rfl (hshort x y p)
    rw [cons_append, hstep, ih, cons_append]
  | case4 => match b with
    | [] | [_] | _ :: _ :: _ => simp [lenientUnescape]

theorem hasDot_append : HasDot (a ++ 47 :: b) ↔ HasDot a ∨ HasDot b := by
  simp only [HasDot, split, splitOn_append_cons_self, mem_append, or_and_right, exists_or]

theorem clean_append : Clean (a ++ 47 :: b) ↔ Clean a ∧ Clean b := by
  have hiter : ∀ k a b, lenientUnescape^[k] (a ++ 47 :: b) = lenientUnescape^[k] a ++ 47 :: lenientUnescape^[k] b := by
    intro k
    induction k with
    | zero => exact fun _ _ => rfl
    | succ k ih =>
      intro a b
      rw [Function.iterate_succ_apply, lenientUnescape_append, ih]
      rfl
  simp only [Clean, hiter, hasDot_append, not_or, forall_and]

theorem clean_nil : Clean [] := by
  intro k _
  have hnil : lenientUnescape^[k] [] = [] := Function.iterate_fixed rfl k
  rw [hnil]
  decide

theorem join_drop (segs : List Text) (n : ℕ) :
    segs.drop n = [] ∨ join (segs.drop n) = join segs ∨ ∃ a, join segs = a ++ 47 :: join (segs.drop n) := by
  induction n generalizing segs with
  | zero => exact .inr (.inl rfl)
  | succ n ih =>
    match segs with
    | [] | [_] => exact .inl (by simp)
    | seg :: next :: segs =>
      have hjoin : join (seg :: next :: segs) = seg ++ 47 :: join (next :: segs) := by
        simp [join, intercalate, intersperse]
      rw [drop_succ_cons, hjoin]
      rcases ih (next :: segs) with h | h | ⟨a, h⟩
      · exact .inl h
      · exact .inr (.inr ⟨seg, by rw [h]⟩)
      · exact .inr (.inr ⟨seg ++ 47 :: a, by rw [h]; simp⟩)

/-! Which route -/

/-- The path's segments are the first of the request's, each unescaped once. -/
def Matches (path raw : Text) : Prop := (want path).map some <+: (segments raw).map pathUnescape

instance (path raw : Text) : Decidable (Matches path raw) := inferInstanceAs (Decidable (_ <+: _))

theorem matchSegments_iff : matchSegments ws parts = true ↔ ws.map some <+: parts.map pathUnescape := by
  induction ws generalizing parts with
  | nil => simp [matchSegments]
  | cons w ws ih =>
    cases parts with
    | nil => simp [matchSegments]
    | cons part parts =>
      rw [matchSegments, map_cons, map_cons, cons_prefix_cons, ← ih]
      split_ifs with h
      · simp [h]
      · simp [Ne.symm h]

def BestOf (raw : Text) (prefixes : List Text) : Option (ℕ × ℕ) → Prop
  | none => ∀ path ∈ prefixes, ¬ Matches path raw
  | some (i, n) => ∃ path, prefixes[i]? = some path ∧ n = (want path).length ∧ Matches path raw ∧
      (∀ path' ∈ prefixes, Matches path' raw → (want path').length ≤ n) ∧
      ∀ j < i, ∀ path', prefixes[j]? = some path' → Matches path' raw → (want path').length < n

variable {prefixes : List Text} {path : Text} {best : Option (ℕ × ℕ)}

theorem BestOf.skip (h : BestOf raw prefixes best)
    (hskip : Matches path raw → ∃ b ∈ best, (want path).length ≤ b.2) : BestOf raw (prefixes ++ [path]) best := by
  rcases best with _ | ⟨i, n⟩
  · refine forall_mem_append.2 ⟨h, forall_mem_singleton.2 fun hm => ?_⟩
    obtain ⟨b, hb, -⟩ := hskip hm
    cases hb
  · obtain ⟨path0, hget, hn, hm, hmax, hfirst⟩ := h
    have hlt : i < prefixes.length := (List.getElem?_eq_some_iff.1 hget).1
    refine ⟨path0, (getElem?_append_left hlt).trans hget, hn, hm,
      forall_mem_append.2 ⟨hmax, forall_mem_singleton.2 fun hm' => ?_⟩, fun j hj => ?_⟩
    · obtain ⟨b, hb, hle⟩ := hskip hm'
      cases hb
      exact hle
    · rw [getElem?_append_left (hj.trans hlt)]
      exact hfirst j hj

theorem BestOf.take (h : BestOf raw prefixes best) (hm : Matches path raw) (hlonger : ∀ b ∈ best, b.2 < (want path).length) :
    BestOf raw (prefixes ++ [path]) (some (prefixes.length, (want path).length)) := by
  have hless : ∀ path' ∈ prefixes, Matches path' raw → (want path').length < (want path).length := by
    intro path' hmem hm'
    rcases best with _ | ⟨i, n⟩
    · exact absurd hm' (h path' hmem)
    · obtain ⟨-, -, -, -, hmax, -⟩ := h
      exact (hmax path' hmem hm').trans_lt (hlonger _ rfl)
  refine ⟨path, by simp, rfl, hm, forall_mem_append.2 ⟨fun path' hmem hm' => (hless path' hmem hm').le,
    forall_mem_singleton.2 fun _ => le_rfl⟩, fun j hj path' hget => ?_⟩
  rw [getElem?_append_left hj] at hget
  exact hless path' (mem_of_getElem? hget)

theorem matchFrom_best (todo : List Text) (h : BestOf raw prefixes best) :
    BestOf raw (prefixes ++ todo) (matchFrom (segments raw) todo prefixes.length best) := by
  induction todo generalizing prefixes best with
  | nil => rwa [append_nil]
  | cons path todo ih =>
    have hnext : ∀ {best'}, BestOf raw (prefixes ++ [path]) best' →
        BestOf raw (prefixes ++ path :: todo) (matchFrom (segments raw) todo (prefixes.length + 1) best') := by
      intro best' hbest
      simpa using ih hbest
    rw [matchFrom]
    split_ifs with hskip hmatch
    · refine hnext (h.skip fun hm => ?_)
      rw [Bool.or_eq_true, Option.any_eq_true, decide_eq_true_eq] at hskip
      rcases hskip with hlong | ⟨b, hb, hle⟩
      · have := hm.length_le
        simp only [length_map] at this
        omega
      · exact ⟨b, hb, of_decide_eq_true hle⟩
    · refine hnext (h.take (matchSegments_iff.1 hmatch) fun b hb => ?_)
      by_contra hge
      exact hskip (by simp [Option.mem_def.1 hb, not_lt.1 hge])
    · exact hnext (h.skip fun hm => absurd (matchSegments_iff.2 hm) hmatch)

/-! What the upstream gets -/

theorem dotRounds_eq_nil (n : ℕ) (p : Text) : dotRounds n p = [] ↔ ∀ k < n, ¬ HasDot (lenientUnescape^[k] p) := by
  induction n generalizing p with
  | zero => simp [dotRounds]
  | succ n ih =>
    rw [dotRounds]
    cases hfind : (split p).find? fun seg => seg = dot || seg = dotDot with
    | some seg =>
      have hseg : seg = dot ∨ seg = dotDot := by simpa using find?_some hfind
      have hne : seg ≠ [] := by rcases hseg with rfl | rfl <;> nofun
      exact iff_of_false hne fun h => h 0 (Nat.succ_pos n) ⟨seg, mem_of_find?_eq_some hfind, hseg⟩
    | none =>
      have hnot : ¬ HasDot p := by
        rintro ⟨seg, hmem, hseg⟩
        have := find?_eq_none.1 hfind seg hmem
        simp only [Bool.or_eq_true, decide_eq_true_eq] at this
        exact this hseg
      dsimp only
      rw [ih]
      constructor
      · intro h k hk
        cases k with
        | zero => exact hnot
        | succ k =>
          have := h k (Nat.lt_of_succ_lt_succ hk)
          rwa [if_pos (by omega)] at this
      · intro h k hk
        rw [if_pos (by omega)]
        exact h (k + 1) (Nat.succ_lt_succ hk)

theorem dotSegment_eq_nil : dotSegment raw = [] ↔ Clean raw := by
  rw [dotSegment, dotRounds_eq_nil]
  simp only [Clean, Nat.lt_succ_iff]

theorem dotRounds_cases (n : ℕ) (p : Text) : dotRounds n p = [] ∨ dotRounds n p = dot ∨ dotRounds n p = dotDot := by
  induction n generalizing p with
  | zero => exact .inl rfl
  | succ n ih =>
    rw [dotRounds]
    cases hfind : (split p).find? fun seg => seg = dot || seg = dotDot with
    | some seg => exact .inr (by simpa using find?_some hfind)
    | none => exact ih _

theorem rawOf_denotes (hvalid : E.Valid p) (hp : pathUnescape p = some path) :
    E.escapedPath path (rawOf E path p) = p := by
  rw [rawOf]
  split_ifs with h
  · exact h
  · by_cases hnil : p = []
    · subst hnil
      cases hp
      exact absurd E.escape_nil (by simpa [Escaping.escapedPath] using h)
    · rw [Escaping.escapedPath, if_pos ⟨hnil, hvalid, hp⟩]

def passed (strip : Bool) (raw : Text) (n : ℕ) : Text := if strip then 47 :: join ((segments raw).drop n) else raw

theorem passed_induction {P : Text → Prop} (hnil : P []) (hslash : ∀ a b, P (a ++ 47 :: b) ↔ P a ∧ P b) (h : P raw)
    (strip : Bool) (n : ℕ) : P (passed strip raw n) := by
  have htrim : P (join (segments raw)) := by
    rw [join, segments, split, intercalate_splitOn]
    cases raw with
    | nil => exact h
    | cons c p =>
      rw [trimLeft]
      split_ifs with hc
      · exact ((hslash [] p).1 (hc ▸ h)).2
      · exact h
  rw [passed]
  split_ifs
  · refine (hslash [] _).2 ⟨hnil, ?_⟩
    rcases join_drop (segments raw) n with hdrop | hall | ⟨a, hrest⟩
    · rw [hdrop]
      exact hnil
    · rw [hall]
      exact htrim
    · exact ((hslash a _).1 (hrest ▸ htrim)).2
  · exact h

theorem Clean.passed (h : Clean raw) (strip : Bool) (n : ℕ) : Clean (passed strip raw n) :=
  passed_induction clean_nil (fun _ _ => clean_append) h strip n

theorem Escaping.Valid.passed (h : E.Valid raw) (strip : Bool) (n : ℕ) : E.Valid (passed strip raw n) := by
  refine passed_induction (P := E.Valid) nofun (fun a b => ?_) h strip n
  simp only [Escaping.Valid, mem_append, mem_cons, or_imp, forall_and, forall_eq, E.valid_slash, true_and]

variable {hosts : Option (Text → Option EnvRoutes)} {host : Text} {tg : Target}

theorem target_ok {e : EnvRoutes} {i n : ℕ} (hpath : pathUnescape raw = some path) (h : target E e raw path i n = .ok tg) :
    e.routes[i]? = some tg.route ∧ pathUnescape (passed tg.route.strip raw n) = some tg.path ∧
      tg.rawPath = rawOf E tg.path (passed tg.route.strip raw n) := by
  revert h
  fun_cases target E e raw path i n <;> rintro ⟨⟩
  case case5 r hr _ _ hstrip path' rawPath' hsome =>
    obtain ⟨path', hrest, heq⟩ := Option.map_eq_some_iff.1 hsome
    cases heq
    rw [passed, if_pos hstrip]
    exact ⟨hr, hrest, rfl⟩
  case case6 r hr _ _ hstrip =>
    rw [passed, if_neg hstrip]
    exact ⟨hr, hpath, rfl⟩

theorem resolve_ok (h : resolve E hosts host raw = .ok tg) : ∃ hs e i n, hosts = some hs ∧ hs host = some e ∧
    Clean raw ∧ matchPrefixes e.prefixes raw = some (i, n) ∧ e.routes[i]? = some tg.route ∧
    pathUnescape (passed tg.route.strip raw n) = some tg.path ∧
      tg.rawPath = rawOf E tg.path (passed tg.route.strip raw n) := by
  revert h
  fun_cases resolve E hosts host raw <;> intro h <;> try cases h
  case case7 hs e he hdotDot hdot path hpath i n hmatch =>
    have hclean : Clean raw := dotSegment_eq_nil.1 ((dotRounds_cases 3 raw).resolve_right fun hor => hor.elim hdot hdotDot)
    exact ⟨hs, e, i, n, rfl, he, hclean, hmatch, target_ok hpath h⟩

/-- A request that `resolve` sends on goes to the first of the longest routes whose segments are the first of its path,
each unescaped once. The upstream gets the path as it is, or for a route that strips, a slash and the segments behind
the route's; it has no dot segment, as it is or decoded once or twice. `DotSegment` is empty for the paths that have
none, and for no others. -/
theorem resolve_longest (E : Escaping) (hosts : Option (Text → Option EnvRoutes)) (host raw : Text) :
    (dotSegment raw ≠ [] ↔ ∃ k ≤ 2, HasDot (lenientUnescape^[k] raw)) ∧
    ∀ tg, E.Valid raw → resolve E hosts host raw = .ok tg → ∃ (hs : Text → Option EnvRoutes) (e : EnvRoutes) (i : ℕ),
      hosts = some hs ∧ hs host = some e ∧ e.routes[i]? = some tg.route ∧ Matches tg.route.path raw ∧
      (∀ r ∈ e.routes, Matches r.path raw → (want r.path).length ≤ (want tg.route.path).length) ∧
      (∀ j < i, ∀ r, e.routes[j]? = some r → Matches r.path raw → (want r.path).length < (want tg.route.path).length) ∧
      let out := passed tg.route.strip raw (want tg.route.path).length
      E.escapedPath tg.path tg.rawPath = out ∧ pathUnescape out = some tg.path ∧
        ∀ k ≤ 2, ¬ HasDot (lenientUnescape^[k] out) := by
  refine ⟨?_, fun tg hvalid h => ?_⟩
  · rw [ne_eq, dotSegment_eq_nil, Clean]
    push Not
    rfl
  · obtain ⟨hs, e, i, n, hhosts, he, hclean, hmatch, hroute, hpath, hraw⟩ := resolve_ok h
    have hnone : BestOf raw [] none := nofun
    have hbest := matchFrom_best e.prefixes hnone
    rw [nil_append, length_nil, ← matchPrefixes, hmatch] at hbest
    obtain ⟨path, hget, rfl, hm, hmax, hfirst⟩ := hbest
    rw [EnvRoutes.prefixes, getElem?_map, hroute] at hget
    cases hget
    refine ⟨hs, e, i, hhosts, he, hroute, hm, fun r hr => hmax r.path (mem_map_of_mem hr), fun j hj r hr => ?_,
      hraw ▸ rawOf_denotes (hvalid.passed _ _) hpath, hpath, hclean.passed _ _⟩
    exact hfirst j hj r.path (by rw [EnvRoutes.prefixes, getElem?_map, hr]; rfl)

/-- An escaping under which only letters and slashes stay as they are. -/
def sampleEscaping : Escaping where
  escape p := p.flatMap fun c => if c = 47 || 97 ≤ c then [c] else [37, 50, 48]
  valid _ := true
  escape_nil := rfl
  valid_slash := rfl

def sampleRoutes : EnvRoutes where
  routes := [⟨text "/", text "web", false, false⟩, ⟨text "/a b/", text "web", true, false⟩,
    ⟨text "/a b", text "api", false, false⟩]
  services := [text "web", text "api"]

/-- `/a%20b/x` goes to the second route, and the upstream gets `/x`. -/
theorem resolve_longest_stripped :
    resolve sampleEscaping (some fun _ => some sampleRoutes) [] (text "/a%20b/x") =
      .ok ⟨⟨text "/a b/", text "web", true, false⟩, text "/x", []⟩ ∧
    pathUnescape (text "/x") = some (text "/x") := by
  have hok : resolve sampleEscaping (some fun _ => some sampleRoutes) [] (text "/a%20b/x") =
      .ok ⟨⟨text "/a b/", text "web", true, false⟩, text "/x", []⟩ := by decide +kernel
  obtain ⟨hs, e, i, -, -, -, -, -, -, -, hpath, -⟩ := (resolve_longest _ _ _ _).2 _ (fun _ _ => rfl) hok
  exact ⟨hok, hpath⟩

end FeOS.Routing

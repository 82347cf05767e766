import Mathlib.Data.Finset.Max
import Mathlib.Data.List.Flatten
import FeOS.Lib.Scan

/-! Masking: a mark is put for each occurrence of a value in a text, value after value. What a text becomes
is said by the parts it is made of, where no value reaches over the border of two parts. -/

namespace Masking

open List

variable {α κ : Type}

/-- The values are looked for in the keys of a text. -/
def replace [DecidableEq κ] (key : α → κ) (mark : List α) (text : List α) (v : List κ) : List α :=
  Scan.scan (Scan.swap (fun rest => v <+: rest.map key) mark (v.length - 1)) 0 text

/-- Where a value begins in one of the texts, it ends in it. -/
def Apart (key : α → κ) (vs : List (List κ)) : List (List α) → Prop
  | [] => True
  | s :: post =>
    (∀ a b, s = a ++ b → b ≠ [] → ∀ v ∈ vs, v <+: (b ++ post.flatten).map key → v.length ≤ b.length) ∧
      Apart key vs post

/-- The parts of a text: one that has a value in it is a value itself. -/
structure Parts (key : α → κ) (vs : List (List κ)) (ts : List (List α)) : Prop where
  apart : Apart key vs ts
  whole : ∀ s ∈ ts, ∀ v ∈ vs, v <:+: s.map key → s.map key ∈ vs

/-- Where a value begins inside an occurrence of another, it ends inside it. -/
def Nested (key : α → κ) (vs : List (List κ)) (text : List α) : Prop :=
  ∀ u ∈ vs, ∀ v ∈ vs, ∀ a b, a ++ b <:+ text → a ≠ [] → a.length < u.length → u <+: (a ++ b).map key →
    v <+: b.map key → a.length + v.length ≤ u.length

/-- No value stands in the text with an element of the mark. -/
def Unmarked (key : α → κ) (mark : List α) (vs : List (List κ)) (text : List α) : Prop :=
  ∀ v ∈ vs, ∀ s, s <:+: text → s.map key = v → ∀ p ∈ s, p ∉ mark

/-- What stands for a part once the values in `done` are replaced. -/
def masked [DecidableEq κ] (key : α → κ) (mark : List α) (done : List (List κ)) (s : List α) : List α :=
  if s.map key ∈ done then mark else s

variable {key : α → κ} {mark text s : List α} {vs done : List (List κ)} {v : List κ} {ts ts' : List (List α)}

theorem exists_of_prefix (h : v <+: text.map key) : ∃ s, s <+: text ∧ s.map key = v := by
  refine ⟨text.take v.length, take_prefix _ _, ?_⟩
  rw [map_take, ← prefix_iff_eq_take.1 h]

theorem exists_of_infix (h : v <:+: text.map key) : ∃ s, s <:+: text ∧ s.map key = v := by
  obtain ⟨l, r, hlr⟩ := h
  have hpre : v <+: (text.drop l.length).map key := by
    rw [map_drop, ← hlr, append_assoc, drop_left]
    exact prefix_append _ _
  obtain ⟨s, hs, rfl⟩ := exists_of_prefix hpre
  exact ⟨s, hs.isInfix.trans (drop_suffix _ _).isInfix, rfl⟩

/-- The first element of what begins a text is that of the text. -/
theorem head_mem {a b : List α} (h : s <+: a ++ b) (hs : s ≠ []) (ha : a ≠ []) : ∃ p ∈ s, p ∈ a := by
  cases s with
  | nil => exact absurd rfl hs
  | cons p s =>
    cases a with
    | nil => exact absurd rfl ha
    | cons x a =>
      obtain ⟨rfl, _⟩ := cons_prefix_cons.1 h
      exact ⟨p, mem_cons_self, mem_cons_self⟩

/-- The part in which a place of a text lies. -/
theorem exists_part {f : List α → List α} {a b : List α} (h : ts.flatMap f = a ++ b) (hb : b ≠ []) :
    ∃ pre s post a' b', ts = pre ++ s :: post ∧ f s = a' ++ b' ∧ b' ≠ [] ∧ b = b' ++ post.flatMap f := by
  induction ts generalizing a with
  | nil => exact absurd (append_eq_nil_iff.1 h.symm).2 hb
  | cons s ts ih =>
    rw [flatMap_cons] at h
    rcases append_eq_append_iff.1 h with ⟨a', rfl, hrest⟩ | ⟨b', hs, rfl⟩
    · obtain ⟨pre, t, post, a'', b'', rfl, hf, hne, rfl⟩ := ih hrest
      exact ⟨s :: pre, t, post, a'', b'', rfl, hf, hne, rfl⟩
    · by_cases hb' : b' = []
      · subst hb'
        rw [nil_append] at hb
        obtain ⟨pre, t, post, a'', b'', rfl, hf, hne, heq⟩ := ih (a := []) rfl
        exact ⟨s :: pre, t, post, a'', b'', rfl, hf, hne, heq⟩
      · exact ⟨[], s, ts, a, b', rfl, hs, hb', rfl⟩

/-! The parts of a text -/

theorem Apart.suffix {pre : List (List α)} (h : Apart key vs (pre ++ ts)) : Apart key vs ts := by
  induction pre with
  | nil => exact h
  | cons s pre ih => exact ih h.2

theorem Apart.append (h : Apart key vs ts) (h' : Apart key vs ts')
    (hend : ∀ a b, ts.flatten = a ++ b → b ≠ [] → ∀ v ∈ vs, v <+: (b ++ ts'.flatten).map key → v.length ≤ b.length) :
    Apart key vs (ts ++ ts') := by
  induction ts with
  | nil => exact h'
  | cons s ts ih =>
    rw [cons_append]
    refine ⟨fun a b hab hb v hv hpre => ?_, ih h.2 fun a b hab hb => hend (s ++ a) b (by simp [hab]) hb⟩
    rw [flatten_append, ← append_assoc] at hpre
    -- it ends before the others begin, and so in its own part
    have hlen := hend a (b ++ ts.flatten) (by simp [hab]) (by simp [hb]) v hv hpre
    rw [map_append] at hpre
    exact h.1 a b hab hb v hv (prefix_of_prefix_length_le hpre (prefix_append _ _) (by rwa [length_map]))

theorem Parts.append (h : Parts key vs ts) (h' : Parts key vs ts')
    (hend : ∀ a b, ts.flatten = a ++ b → b ≠ [] → ∀ v ∈ vs, v <+: (b ++ ts'.flatten).map key → v.length ≤ b.length) :
    Parts key vs (ts ++ ts') where
  apart := h.apart.append h'.apart hend
  whole s hs := (mem_append.1 hs).elim (h.whole s) (h'.whole s)

theorem Unmarked.part (h : Unmarked key mark vs text) (hs : s <:+: text) : Unmarked key mark vs s :=
  fun v hv r hr => h v hv r (hr.trans hs)

theorem Nested.suffix {post : List α} (h : Nested key vs text) (hs : post <:+ text) : Nested key vs post :=
  fun u hu v hv a b hab => h u hu v hv a b (hab.trans hs)

/-- The longest value at a place is a part, and an element at which no value begins is one. -/
theorem exists_parts (hne : [] ∉ vs) (h : Nested key vs text) : ∃ ts, ts.flatten = text ∧ Parts key vs ts := by
  classical
  induction hn : text.length using Nat.strong_induction_on generalizing text with
  | _ n ih =>
    subst hn
    cases text with
    | nil => exact ⟨[], rfl, trivial, by simp⟩
    | cons x rest =>
      by_cases hex : ∃ v ∈ vs, v <+: (x :: rest).map key
      · obtain ⟨v, hv, hpre⟩ := hex
        obtain ⟨u, hu, hmax⟩ := ((vs.toFinset.filter fun v => v <+: (x :: rest).map key)).exists_max_image length
          ⟨v, by simpa using ⟨hv, hpre⟩⟩
        simp only [Finset.mem_filter, mem_toFinset] at hu hmax
        obtain ⟨s, ⟨post, hpost⟩, rfl⟩ := exists_of_prefix hu.2
        have hs : s ≠ [] := by
          rintro rfl
          exact hne hu.1
        have hshort : post.length < (x :: rest).length := by
          have hpos := length_pos_iff.2 hs
          rw [← hpost, length_append]
          omega
        obtain ⟨ts, hts, hparts⟩ := ih _ hshort (h.suffix ⟨s, hpost⟩) rfl
        refine ⟨s :: ts, by rw [flatten_cons, hts, hpost], ⟨fun a b hab hb v hv hpre => ?_, hparts.apart⟩, ?_⟩
        · rw [hts] at hpre
          by_cases ha : a = []
          · subst ha
            have := hmax v ⟨hv, by rwa [← hpost, hab]⟩
            simpa [hab] using this
          · have hlen := h _ hu.1 v hv a (b ++ post) ⟨[], by rw [← hpost, hab]; simp⟩ ha
              (by have := length_pos_iff.2 hb; rw [hab]; simp; omega) (by rw [hab]; simp) hpre
            rw [hab] at hlen
            simp at hlen
            omega
        · rintro t ht v hv hin
          rcases mem_cons.1 ht with rfl | ht
          · exact hu.1
          · exact hparts.whole t ht v hv hin
      · obtain ⟨ts, hts, hparts⟩ := ih _ (by simp) (h.suffix (suffix_cons x rest)) rfl
        have hno : ∀ v ∈ vs, ¬ v <+: (x :: rest).map key := fun v hv hpre => hex ⟨v, hv, hpre⟩
        refine ⟨[x] :: ts, by simp [hts], ⟨fun a b hab hb v hv hpre => ?_, hparts.apart⟩, ?_⟩
        · obtain ⟨rfl, rfl⟩ | ⟨rfl, rfl⟩ := append_eq_singleton_iff.1 hab.symm
          · rw [hts] at hpre
            exact absurd hpre (hno v hv)
          · exact absurd rfl hb
        · rintro t ht v hv hin
          rcases mem_cons.1 ht with rfl | ht
          · -- a value in a single element is the element
            rcases sublist_singleton.1 hin.sublist with rfl | rfl
            · exact absurd hv hne
            · exact hv
          · exact hparts.whole t ht v hv hin

/-- An occurrence of a value is in a part that is a value. -/
theorem Parts.exists_mem (h : Parts key vs ts) (hs : s <:+: ts.flatten) (hne : s ≠ []) (hv : s.map key ∈ vs) :
    ∃ m ∈ ts, m.map key ∈ vs ∧ s <:+: m := by
  obtain ⟨l, r, hlr⟩ := hs
  rw [append_assoc, ← flatMap_id] at hlr
  obtain ⟨pre, m, post, a, b, rfl, hm, hb, hsr⟩ := exists_part hlr.symm (by simp [hne])
  have hsb : s <+: b ++ post.flatten := ⟨r, by rw [hsr, flatMap_id]⟩
  have hlen := h.apart.suffix.1 a b hm hb _ hv (hsb.map key)
  have hpre : s <+: b := prefix_of_prefix_length_le hsb (prefix_append _ _) (by simpa using hlen)
  have hsm : s <:+: m := hpre.isInfix.trans ⟨a, [], by rw [append_nil]; exact hm.symm⟩
  exact ⟨m, by simp, h.whole m (by simp) _ hv (hsm.map key), hsm⟩

/-! Replacing -/

section
variable [DecidableEq κ]

/-- What begins a masked text and has nothing of a mark begins the text. -/
theorem prefix_flatten (h : s <+: ts.flatMap (masked key mark done)) (hs : ∀ p ∈ s, p ∉ mark) (hmark : mark ≠ []) :
    s <+: ts.flatten := by
  induction ts generalizing s with
  | nil => exact h
  | cons t ts ih =>
    rw [flatMap_cons, masked] at h
    split_ifs at h with hd
    · by_cases hne : s = []
      · exact hne ▸ nil_prefix
      · obtain ⟨p, hp, hpm⟩ := head_mem h hne hmark
        exact absurd hpm (hs p hp)
    · rw [flatten_cons]
      rcases prefix_or_prefix_of_prefix h (prefix_append t _) with hst | ⟨r, rfl⟩
      · exact hst.trans (prefix_append _ _)
      · rw [prefix_append_right_inj] at h ⊢
        exact ih h fun p hp => hs p (mem_append_right _ hp)

/-- A value that stands in a masked text, but not in a mark, is in a part that is not masked. -/
theorem Parts.at_place {post : List (List α)} {a b : List α} (h : Parts key vs (s :: post)) (hab : s = a ++ b) (hb : b ≠ [])
    (hv : v ∈ vs) (hmark : mark ≠ []) (hun : Unmarked key mark vs (b ++ post.flatMap (masked key mark done)))
    (hpre : v <+: (b ++ post.flatMap (masked key mark done)).map key) : v <:+: s.map key ∧ v.length ≤ b.length := by
  obtain ⟨r, hr, rfl⟩ := exists_of_prefix hpre
  have hfree := hun _ hv r hr.isInfix rfl
  have hflat : r <+: b ++ post.flatten := by
    rcases prefix_or_prefix_of_prefix hr (prefix_append b _) with hrb | ⟨r', rfl⟩
    · exact hrb.trans (prefix_append _ _)
    · rw [prefix_append_right_inj] at hr ⊢
      exact prefix_flatten hr (fun p hp => hfree p (mem_append_right _ hp)) hmark
  have hlen := h.apart.1 a b hab hb _ hv (hflat.map key)
  refine ⟨?_, hlen⟩
  have hrb : r <+: b := prefix_of_prefix_length_le hflat (prefix_append _ _) (by simpa using hlen)
  rw [hab]
  exact (hrb.isInfix.trans (suffix_append a b).isInfix).map key

/-- Replacing a value masks the parts that it is, where every other value that has it is masked already. -/
theorem replace_masked (h : Parts key vs ts) (hne : v ≠ []) (hv : v ∈ vs) (hmark : mark ≠ [])
    (hlast : ∀ u ∈ vs, u ∉ done → v <:+: u → u = v) (hun : Unmarked key mark vs (ts.flatMap (masked key mark done))) :
    replace key mark (ts.flatMap (masked key mark done)) v = ts.flatMap (masked key mark (done ++ [v])) := by
  induction ts with
  | nil => rfl
  | cons s post ih =>
    have hpost : Parts key vs post := ⟨h.apart.2, fun t ht => h.whole t (mem_cons_of_mem _ ht)⟩
    have hrest := ih hpost (hun.part ⟨masked key mark done s, [], by simp⟩)
    simp only [flatMap_cons]
    by_cases hd : s.map key ∈ done
    · -- in a mark no value begins
      have hkeep : ∀ a b, mark = a ++ b → b ≠ [] →
          ¬ v <+: (b ++ post.flatMap (masked key mark done)).map key := by
        intro a b hab hb hpre
        obtain ⟨r, hr, rfl⟩ := exists_of_prefix hpre
        obtain ⟨p, hp, hpb⟩ := head_mem hr (by simpa using hne) hb
        refine hun _ hv r (hr.isInfix.trans ⟨a, [], ?_⟩) rfl p hp (hab ▸ mem_append_right a hpb)
        rw [flatMap_cons, masked, if_pos hd, hab]
        simp
      rw [masked, masked, if_pos hd, if_pos (mem_append_left _ hd), replace, Scan.scan_swap_keep hkeep, ← replace, hrest]
    · by_cases hsv : s.map key = v
      · subst hsv
        have hs : s ≠ [] := by simpa using hne
        rw [masked, masked, if_neg hd, if_pos (by simp), replace, length_map,
          Scan.scan_swap_found hs (by simp), ← hrest, replace, length_map]
      · have hkeep : ∀ a b, s = a ++ b → b ≠ [] → ¬ v <+: (b ++ post.flatMap (masked key mark done)).map key := by
          intro a b hab hb hpre
          have hpart : Unmarked key mark vs (b ++ post.flatMap (masked key mark done)) := by
            refine hun.part ⟨a, [], ?_⟩
            rw [flatMap_cons, masked, if_neg hd]
            simp [hab]
          have hin := (h.at_place hab hb hv hmark hpart hpre).1
          exact hsv (hlast _ (h.whole s mem_cons_self v hv hin) hd hin)
        have hd' : s.map key ∉ done ++ [v] := by simpa [hd] using hsv
        rw [masked, masked, if_neg hd, if_neg hd', replace, Scan.scan_swap_keep hkeep, ← replace, hrest]

/-- A value that is nowhere in a text is not replaced. -/
theorem replace_eq_self (h : ¬ v <:+: text.map key) : replace key mark text v = text := by
  have hkeep : ∀ a b, text = a ++ b → b ≠ [] → ¬ v <+: (b ++ []).map key := by
    intro a b hab _ hpre
    rw [append_nil] at hpre
    exact h (hpre.isInfix.trans ((hab ▸ suffix_append a b).isInfix.map key))
  have hscan : replace key mark (text ++ []) v = text ++ replace key mark [] v := Scan.scan_swap_keep hkeep
  have hnil : replace key mark [] v = [] := rfl
  rwa [append_nil, hnil, append_nil] at hscan

/-- Values replaced one after the other, where none has one after it inside, leave each part that is a
value masked. -/
theorem foldl_replace (h : Parts key vs ts) (hne : [] ∉ vs) (hmark : mark ≠ [])
    (hsort : vs.Pairwise fun u v => u <:+: v → v = u)
    (hun : ∀ done, done <+: vs → Unmarked key mark vs (done.foldl (replace key mark) ts.flatten)) (hdone : done <+: vs) :
    done.foldl (replace key mark) ts.flatten = ts.flatMap (masked key mark done) := by
  induction done using reverseRecOn with
  | nil =>
    have hid : masked key mark [] = id := funext fun s => if_neg not_mem_nil
    rw [foldl_nil, hid, flatMap_id]
  | append_singleton done v ih =>
    have hpre := (prefix_append done [v]).trans hdone
    obtain ⟨rest, rfl⟩ := hdone
    rw [append_assoc, singleton_append] at *
    have hlast : ∀ u ∈ done ++ v :: rest, u ∉ done → v <:+: u → u = v := by
      intro u hu hud hin
      rcases mem_cons.1 ((mem_append.1 hu).resolve_left hud) with rfl | hu
      · rfl
      · exact (pairwise_cons.1 (pairwise_append.1 hsort).2.1).1 u hu hin
    have hv : v ∈ done ++ v :: rest := by simp
    rw [foldl_append, foldl_cons, foldl_nil, ih hpre]
    refine replace_masked h (fun hnil => hne (hnil ▸ hv)) hv hmark hlast ?_
    rw [← ih hpre]
    exact hun done hpre

/-- No value is left in a text of parts all of which are masked that are values. -/
theorem not_infix_masked (h : Parts key vs ts) (hne : [] ∉ vs) (hmark : mark ≠ []) (hv : v ∈ vs)
    (hun : Unmarked key mark vs (ts.flatMap (masked key mark vs))) : ¬ v <:+: (ts.flatMap (masked key mark vs)).map key := by
  intro hin
  obtain ⟨r, ⟨l, t, hlt⟩, rfl⟩ := exists_of_infix hin
  have hr : r ≠ [] := by
    rintro rfl
    exact hne hv
  rw [append_assoc] at hlt
  obtain ⟨pre, s, post, a, b, rfl, hs, hb, hpart⟩ := exists_part hlt.symm (by simp [hr])
  have hrb : r <+: b ++ post.flatMap (masked key mark vs) := ⟨t, hpart⟩
  have hwhole : b ++ post.flatMap (masked key mark vs) <:+ (pre ++ s :: post).flatMap (masked key mark vs) := by
    rw [flatMap_append, flatMap_cons, hs]
    exact ⟨pre.flatMap (masked key mark vs) ++ a, by simp⟩
  have hsparts : Parts key vs (s :: post) := ⟨h.apart.suffix, fun t ht => h.whole t (mem_append_right _ ht)⟩
  rw [masked] at hs
  split_ifs at hs with hd
  · obtain ⟨p, hp, hpb⟩ := head_mem hrb hr hb
    exact hun _ hv r (hrb.isInfix.trans hwhole.isInfix) rfl p hp (hs ▸ mem_append_right a hpb)
  · have hin := (hsparts.at_place hs hb hv hmark (hun.part hwhole.isInfix) (hrb.map key)).1
    exact hd (hsparts.whole s mem_cons_self _ hv hin)

end

end Masking

import FeOS.Spec.Content

/-! The walk over a sparse file's extents, and the chunks it finds touched. -/

namespace FeOS

open Calls Calls.Prog List

variable {Hash : Type} [DecidableEq Hash] (L : Crates Hash)

namespace SparseFile

variable {f : SparseFile}

theorem lt_length_of_isData {p : ℕ} (h : f.isData p = true) : p < f.length := by
  by_contra hp
  rw [isData, getElem?_eq_none (by omega)] at h
  exact absurd h (by simp)

theorem seekData_none {pos : ℕ} (h : f.seekData pos = none) :
    ∀ p, pos ≤ p → f.isData p = false := by
  intro p hp
  by_contra hd
  rw [Bool.not_eq_false] at hd
  have hlt := lt_length_of_isData hd
  rw [seekData, find?_range'_eq_none] at h
  have := h p hp (by omega)
  simp [hd] at this

theorem seekData_some {pos d : ℕ} (h : f.seekData pos = some d) :
    pos ≤ d ∧ f.isData d = true ∧ ∀ p, pos ≤ p → p < d → f.isData p = false := by
  rw [seekData, find?_range'_eq_some] at h
  obtain ⟨hd, hmem, hbefore⟩ := h
  rw [mem_range'_1] at hmem
  exact ⟨hmem.1, hd, fun p h1 h2 => by simpa using hbefore p h1 h2⟩

theorem seekHole_spec {d : ℕ} (hd : f.isData d = true) :
    d < f.seekHole d ∧ f.isData (f.seekHole d) = false ∧
      ∀ p, d ≤ p → p < f.seekHole d → f.isData p = true := by
  have hlt := lt_length_of_isData hd
  rw [seekHole]
  cases h : (range' d (f.length - d)).find? fun p => !f.isData p with
  | none =>
    rw [find?_range'_eq_none] at h
    refine ⟨hlt, ?_, fun p h1 h2 => ?_⟩
    · by_contra hc
      rw [Bool.not_eq_false] at hc
      exact absurd (lt_length_of_isData hc) (lt_irrefl _)
    · simpa using h p h1 (by simp at h2; omega)
  | some e =>
    rw [find?_range'_eq_some] at h
    obtain ⟨he, hmem, hbefore⟩ := h
    rw [mem_range'_1] at hmem
    have hne : e ≠ d := by
      rintro rfl
      simp [hd] at he
    refine ⟨by simp; omega, by simpa using he, fun p h1 h2 => ?_⟩
    simpa using hbefore p h1 h2

end SparseFile

/-- The extents are runs of data, they have all of the data from `pos` on, and each ends at a
hole or at the end. -/
structure ExtentsFrom (f : SparseFile) (pos len : ℕ) (ex : List (ℕ × ℕ)) : Prop where
  nonempty : ∀ x ∈ ex, x.1 < x.2
  bounded : ∀ x ∈ ex, x.2 ≤ len
  data : ∀ x ∈ ex, ∀ p, x.1 ≤ p → p < x.2 → f.isData p = true
  all : ∀ p, pos ≤ p → p < len → f.isData p = true → ∃ x ∈ ex, x.1 ≤ p ∧ p < x.2
  maximal : ∀ x ∈ ex, x.2 = len ∨ f.isData x.2 = false

variable {f : SparseFile}

theorem extentsFrom_nil {pos len : ℕ}
    (h : ∀ p, pos ≤ p → p < len → f.isData p = false) : ExtentsFrom f pos len [] := by
  refine ⟨by simp, by simp, by simp, fun p h1 h2 hd => ?_, by simp⟩
  rw [h p h1 h2] at hd
  exact absurd hd (by simp)

theorem extentsFrom_cons {pos d len : ℕ} {ex : List (ℕ × ℕ)}
    (hd : f.isData d = true) (hbefore : ∀ p, pos ≤ p → p < d → f.isData p = false) (hlen : d < len)
    (hex : ExtentsFrom f (min (f.seekHole d) len) len ex) :
    ExtentsFrom f pos len ((d, min (f.seekHole d) len) :: ex) := by
  obtain ⟨hlt, hhole, hrun⟩ := SparseFile.seekHole_spec hd
  constructor
  · rintro x (_ | ⟨_, hx⟩)
    · exact lt_min hlt hlen
    · exact hex.nonempty x hx
  · rintro x (_ | ⟨_, hx⟩)
    · exact min_le_right _ _
    · exact hex.bounded x hx
  · rintro x (_ | ⟨_, hx⟩)
    · exact fun p h1 h2 => hrun p h1 (lt_of_lt_of_le h2 (min_le_left _ _))
    · exact hex.data x hx
  · intro p h1 h2 hp
    by_cases hpd : p < d
    · rw [hbefore p h1 hpd] at hp
      exact absurd hp (by simp)
    by_cases hpe : p < min (f.seekHole d) len
    · exact ⟨_, mem_cons_self, by simpa using hpd, hpe⟩
    · obtain ⟨x, hx, hx'⟩ := hex.all p (by omega) h2 hp
      exact ⟨x, mem_cons_of_mem _ hx, hx'⟩
  · rintro x (_ | ⟨_, hx⟩)
    · rcases le_total (f.seekHole d) len with h | h
      · exact Or.inr (by simpa [min_eq_left h] using hhole)
      · exact Or.inl (min_eq_right h)
    · exact hex.maximal x hx

theorem dataExtentsFrom_run {n : Node Hash} {top : Path} (hf : n.files top = some f)
    (len : ℕ) : ∀ fuel pos, len - pos ≤ fuel →
      ∃ ex, run (Node.exec L) (dataExtentsFrom top len fuel pos) n = (.ok ex, n) ∧
        ExtentsFrom f pos len ex := by
  intro fuel
  -- each turn takes `pos` past an extent, so the fuel left covers what is left of the file
  induction fuel with
  | zero =>
    intro pos hfuel
    exact ⟨[], rfl, extentsFrom_nil fun p h1 h2 => by omega⟩
  | succ fuel ih =>
    intro pos hfuel
    have hdata : run (Node.exec L) (sys (.seekData top pos)) n = (.ok (f.seekData pos), n) := by
      simp [Node.exec, Node.onFile, hf]
    by_cases hpos : pos < len
    swap
    · exact ⟨[], by simp [dataExtentsFrom, hpos], extentsFrom_nil fun p h1 h2 => by omega⟩
    rw [dataExtentsFrom, if_pos hpos, run_bind_of_ok _ _ hdata]
    cases hsd : f.seekData pos with
    | none => exact ⟨[], by simp, extentsFrom_nil fun p h1 _ => SparseFile.seekData_none hsd p h1⟩
    | some d =>
      obtain ⟨hpd, hd, hbefore⟩ := SparseFile.seekData_some hsd
      by_cases hlen : len ≤ d
      · refine ⟨[], by simp [hlen], extentsFrom_nil fun p h1 h2 => hbefore p h1 (by omega)⟩
      have hhole : run (Node.exec L) (sys (.seekHole top d)) n = (.ok (f.seekHole d), n) := by
        simp [Node.exec, Node.onFile, hf]
      obtain ⟨hlt, -, -⟩ := SparseFile.seekHole_spec hd
      obtain ⟨ex, hrun, hex⟩ := ih (min (f.seekHole d) len) (by omega)
      refine ⟨(d, min (f.seekHole d) len) :: ex, ?_, extentsFrom_cons hd hbefore (by omega) hex⟩
      simp only [hlen, if_false]
      rw [run_bind_of_ok _ _ hhole, run_bind_of_ok _ _ hrun]
      simp

theorem dataExtents_run {n : Node Hash} {top : Path} (hf : n.files top = some f) (len : ℕ) :
    ∃ ex, run (Node.exec L) (dataExtents top len) n = (.ok ex, n) ∧ ExtentsFrom f 0 len ex :=
  dataExtentsFrom_run L hf len len 0 (by omega)

section Touched
variable {f : SparseFile} {len logicalSize chunkSize : ℕ} {ex : List (ℕ × ℕ)}

theorem touchedChunks_sorted (ex : List (ℕ × ℕ)) (chunkSize nChunks : ℕ) :
    (touchedChunks ex chunkSize nChunks).Pairwise (· < ·) := by
  have hs : (touchedChunks ex chunkSize nChunks).Pairwise (· ≤ ·) :=
    (pairwise_insertionSort _ _).sublist (dedup_sublist _)
  have hn : (touchedChunks ex chunkSize nChunks).Nodup := nodup_dedup _
  exact (hs.and hn).imp fun h => lt_of_le_of_ne h.1 h.2

variable {ci : ℕ}

theorem mem_touchedChunks {ex : List (ℕ × ℕ)} {chunkSize nChunks : ℕ} :
    ci ∈ touchedChunks ex chunkSize nChunks ↔
      ∃ x ∈ ex, x.1 / chunkSize ≤ ci ∧ ci ≤ (x.2 - 1) / chunkSize ∧ ci ≤ nChunks - 1 := by
  simp only [touchedChunks, mem_dedup, mem_insertionSort, mem_flatMap,
    mem_range'_1]
  refine exists_congr fun x => and_congr_right fun _ => ?_
  omega

theorem lt_chunkCount (hcs : 0 < chunkSize) {p : ℕ} (hp : p < logicalSize) :
    p / chunkSize < chunkCount logicalSize chunkSize := by
  have h1 : p / chunkSize ≤ logicalSize / chunkSize := Nat.div_le_div_right hp.le
  rw [chunkCount]
  split_ifs with h
  · -- the size is a whole number of chunks, and `p` lies before its end
    rwa [add_zero, Nat.div_lt_iff_lt_mul hcs, Nat.div_mul_cancel (Nat.dvd_of_mod_eq_zero h)]
  · omega

theorem lt_of_lt_chunkCount (hcs : 0 < chunkSize) (h : ci < chunkCount logicalSize chunkSize) :
    ci * chunkSize < logicalSize := by
  rw [chunkCount] at h
  have hdiv := Nat.div_add_mod logicalSize chunkSize
  rw [mul_comm] at hdiv
  split_ifs at h with h₀
  · have : (ci + 1) * chunkSize ≤ logicalSize / chunkSize * chunkSize :=
      Nat.mul_le_mul_right _ (by omega)
    rw [add_mul, one_mul] at this
    omega
  · have : ci * chunkSize ≤ logicalSize / chunkSize * chunkSize := Nat.mul_le_mul_right _ (by omega)
    omega

variable (hex : ExtentsFrom f 0 len ex) (hcs : 0 < chunkSize)
include hex hcs

theorem touched_lt (hlen : len ≤ logicalSize)
    (h : ci ∈ touchedChunks ex chunkSize (chunkCount logicalSize chunkSize)) :
    ci * chunkSize < logicalSize := by
  obtain ⟨x, hx, -, -, hci⟩ := mem_touchedChunks.1 h
  have h1 := hex.nonempty x hx
  have h2 := hex.bounded x hx
  have h3 := lt_chunkCount hcs (show x.1 < logicalSize by omega)
  exact lt_of_lt_chunkCount hcs (lt_of_le_of_lt hci (Nat.sub_lt (Nat.zero_lt_of_lt h3) one_pos))

theorem touched_of_isData (hlen : len ≤ logicalSize) {p : ℕ} (hp : p < len) (hd : f.isData p = true) :
    p / chunkSize ∈ touchedChunks ex chunkSize (chunkCount logicalSize chunkSize) := by
  obtain ⟨x, hx, h1, h2⟩ := hex.all p (Nat.zero_le p) hp hd
  refine mem_touchedChunks.2 ⟨x, hx, Nat.div_le_div_right h1, Nat.div_le_div_right (by omega), ?_⟩
  have := lt_chunkCount hcs (show p < logicalSize by omega)
  omega

theorem exists_isData_of_touched (h : ci ∈ touchedChunks ex chunkSize (chunkCount logicalSize chunkSize)) :
    ∃ p, p < len ∧ f.isData p = true ∧ p / chunkSize = ci := by
  obtain ⟨x, hx, h1, h2, -⟩ := mem_touchedChunks.1 h
  have hne := hex.nonempty x hx
  have hb := hex.bounded x hx
  -- the later of the extent's start and the chunk's start
  have hlow : ci * chunkSize ≤ x.2 - 1 := (Nat.le_div_iff_mul_le hcs).1 h2
  have hhigh : x.1 < (ci + 1) * chunkSize := by
    rw [← Nat.div_lt_iff_lt_mul hcs]
    omega
  rw [add_mul, one_mul] at hhigh
  refine ⟨max x.1 (ci * chunkSize), by omega, hex.data x hx _ (by omega) (by omega), ?_⟩
  rw [Nat.div_eq_iff hcs]
  constructor <;> omega

end Touched

end FeOS

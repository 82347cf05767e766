import FeOS.Sanity.SealRun

/-! The bytes a seal composes for a chunk are those the disk reads there. -/

namespace FeOS

open Calls Calls.Prog List Node

namespace SparseFile

theorem readExact_of_le {f : SparseFile} {off len : ℕ} (h : off + len ≤ f.length) :
    f.readExact off len = some ((range' off len).map f.byteAt) := by
  rw [readExact, if_pos (Or.inr h)]

theorem getElem?_read (f : SparseFile) {off len i : ℕ} (hi : i < len) :
    ((range' off len).map f.byteAt)[i]? = some (f.byteAt (off + i)) := by
  rw [getElem?_map, getElem?_range' hi, one_mul, Option.map_some]

end SparseFile

section Views
variable {Hash : Type}

@[simp] theorem length_viewChunk (v : View) (off len : ℕ) : (viewChunk v off len).length = len := by
  simp [viewChunk]

variable {v : View} {off len i cs : ℕ} {chain : List (Manifest Hash)}

theorem getElem?_viewChunk (hw : Whole v off len) (hi : i < len) :
    (viewChunk v off len)[i]? = v (off + i) := by
  obtain ⟨b, hb⟩ := Option.isSome_iff_exists.1 (hw i hi)
  simp [viewChunk, hi, hb]

theorem eq_viewChunk {buf : Bytes} (hlen : buf.length = len)
    (h : ∀ i < len, buf[i]? = v (off + i)) : buf = viewChunk v off len ∧ Whole v off len := by
  have hw : Whole v off len := fun i hi => by
    rw [← h i hi, getElem?_eq_getElem (by omega)]
    rfl
  refine ⟨ext_getElem? fun i => ?_, hw⟩
  by_cases hi : i < len
  · rw [h i hi, getElem?_viewChunk hw hi]
  · rw [getElem?_eq_none (by omega), getElem?_eq_none (by simpa using hi)]

theorem viewChunk_congr {w : View} (h : ∀ i < len, v (off + i) = w (off + i)) :
    viewChunk v off len = viewChunk w off len := by
  refine map_congr_left fun i hi => ?_
  rw [h i (mem_range.1 hi)]

theorem div_mul_of_dvd (hoff : cs ∣ off) (hi : i < cs) :
    (off + i) / cs * cs = off ∧ (off + i) % cs = i := by
  obtain ⟨k, rfl⟩ := hoff
  constructor
  · rw [Nat.mul_add_div (by omega), Nat.div_eq_of_lt hi, add_zero, mul_comm]
  · rw [Nat.mul_add_mod, Nat.mod_eq_of_lt hi]

theorem chainView_chunk (chunks : Hash → Option Bytes) (chain : List (Manifest Hash))
    (hoff : cs ∣ off) (hi : i < cs) :
    chainView chunks chain cs (off + i) =
      chunkByte chunks (parentChunk? (resolveParent chain off)) i := by
  rw [chainView, (div_mul_of_dvd hoff hi).1, (div_mul_of_dvd hoff hi).2]

theorem parentChunk?_mem {h : Hash}
    (hp : parentChunk? (resolveParent chain off) = some h) : ∃ m ∈ chain, h ∈ m.dataHashes := by
  obtain ⟨e, he, hc⟩ := Option.bind_eq_some_iff.1 hp
  obtain ⟨m, hm, hme⟩ := exists_of_findSome?_eq_some he
  exact ⟨m, mem_reverse.1 hm, mem_filterMap.2 ⟨e, Keyed.look_mem hme, hc⟩⟩

theorem chainView_kept {chunks chunks' : Hash → Option Bytes}
    (hkept : ∀ h c, chunks h = some c → chunks' h = some c)
    (hr : Readable chunks chain) (cs : ℕ) : chainView chunks' chain cs = chainView chunks chain cs := by
  funext p
  rw [chainView, chainView]
  cases hp : parentChunk? (resolveParent chain (p / cs * cs)) with
  | none => rfl
  | some h =>
    obtain ⟨m, hm, hh⟩ := parentChunk?_mem hp
    obtain ⟨c, hc⟩ := Option.isSome_iff_exists.1 (hr m hm h hh)
    rw [chunkByte, chunkByte, hc, hkept h c hc]

end Views

/-- A chunk the seal can compose: the top has all of it, or what is below is there and long
enough. -/
def Composable {Hash : Type} (f : SparseFile) (chunks : Hash → Option Bytes)
    (chain : List (Manifest Hash)) (off rawLen : ℕ) : Prop :=
  (∀ i < rawLen, f.isData (off + i) = true) ∨
    ∀ h, parentChunk? (resolveParent chain off) = some h → ∃ c, chunks h = some c ∧ rawLen ≤ c.length

variable {Hash : Type} [DecidableEq Hash] (L : Crates Hash) {n : Node Hash} {top : Path}
  {f : SparseFile} (hf : n.files top = some f)

section Overlay
include hf

theorem readExactAt_run {off len : ℕ} (h : off + len ≤ f.length) :
    run (exec L) (sys (.readExactAt top off len)) n = (.ok ((range' off len).map f.byteAt), n) := by
  simp [exec, onFile, hf, SparseFile.readExact_of_le h]

theorem overlayFrom_run {len rawLen : ℕ} (off : ℕ) (hlen : len ≤ f.length) :
    ∀ (ex : List (ℕ × ℕ)) (base : Bytes), (∀ x ∈ ex, x.2 ≤ len) → base.length = rawLen →
      ∃ r, run (exec L) (overlayFrom top off rawLen ex base) n = (.ok r, n) ∧ r.length = rawLen ∧
        ∀ i < rawLen, r[i]? = if ∃ x ∈ ex, x.1 ≤ off + i ∧ off + i < x.2
          then some (f.byteAt (off + i)) else base[i]? := by
  intro ex
  induction ex with
  | nil => exact fun base _ hb => ⟨base, rfl, hb, fun i _ => by simp⟩
  | cons x ex ih =>
    intro base hbound hb
    have hx := hbound x mem_cons_self
    have hrest : ∀ y ∈ ex, y.2 ≤ len := fun y hy => hbound y (mem_cons_of_mem _ hy)
    rw [overlayFrom]
    by_cases hmiss : min x.2 (off + rawLen) ≤ max x.1 off
    · -- the extent has nothing of the chunk
      obtain ⟨r, hr, hrlen, hri⟩ := ih base hrest hb
      rw [if_pos hmiss]
      refine ⟨r, hr, hrlen, fun i hi => ?_⟩
      have hnot : ¬ (x.1 ≤ off + i ∧ off + i < x.2) := by omega
      rw [hri i hi]
      simp only [exists_mem_cons_iff, hnot, false_or]
    · set rel := max x.1 off - off with hrel
      set want := min x.2 (off + rawLen) - max x.1 off with hwant
      set got := (range' (max x.1 off) want).map f.byteAt with hgot
      have hread := readExactAt_run L hf (show max x.1 off + want ≤ f.length by omega)
      have hgotlen : got.length = want := by simp [hgot]
      have hle : rel ≤ base.length := by omega
      obtain ⟨r, hr, hrlen, hri⟩ := ih (Splice.splice base rel got) hrest
        (by rw [Splice.length_splice _ hle]; omega)
      rw [if_neg hmiss, run_bind_of_ok _ _ hread]
      refine ⟨r, hr, hrlen, fun i hi => ?_⟩
      rw [hri i hi, Splice.getElem?_splice _ hle, hgotlen]
      by_cases hex : ∃ y ∈ ex, y.1 ≤ off + i ∧ off + i < y.2
      · rw [if_pos hex, if_pos]
        obtain ⟨y, hy, hy'⟩ := hex
        exact ⟨y, mem_cons_of_mem _ hy, hy'⟩
      · have hiff : (x.1 ≤ off + i ∧ off + i < x.2) ↔ (rel ≤ i ∧ i < rel + want) := by omega
        simp only [exists_mem_cons_iff, hex, or_false, if_false, hiff]
        split_ifs with hin
        · rw [hgot, SparseFile.getElem?_read f (by omega)]
          congr 2
          omega
        · rfl

end Overlay

section Compose
variable {chain : List (Manifest Hash)} {ex : List (ℕ × ℕ)} {len off rawLen cs : ℕ}
  (hex : ExtentsFrom f 0 len ex)

include hex

theorem extents_cover_iff {p : ℕ} (hp : p < len) :
    (∃ x ∈ ex, x.1 ≤ p ∧ p < x.2) ↔ f.isData p = true := by
  constructor
  · rintro ⟨x, hx, h1, h2⟩
    exact hex.data x hx p h1 h2
  · exact hex.all p (Nat.zero_le p) hp

theorem coversChunk_iff (hraw : 0 < rawLen) (hdata : ∀ p < off + rawLen, f.isData p = true → p < len) :
    coversChunk ex off rawLen = true ↔ ∀ i < rawLen, f.isData (off + i) = true := by
  simp only [coversChunk, any_eq_true, Bool.and_eq_true, decide_eq_true_eq]
  constructor
  · rintro ⟨x, hx, h1, h2⟩ i hi
    exact hex.data x hx _ (by omega) (by omega)
  · intro hall
    have h₀ := hall 0 hraw
    obtain ⟨x, hx, h1, h2⟩ := (extents_cover_iff hex (hdata _ (by omega) h₀)).2 h₀
    refine ⟨x, hx, h1, ?_⟩
    by_contra hshort
    have hend : f.isData x.2 = true := by
      have := hall (x.2 - off) (by omega)
      rwa [show off + (x.2 - off) = x.2 by omega] at this
    rcases hex.maximal x hx with hmax | hmax
    · have := hdata x.2 (by omega) hend
      omega
    · rw [hend] at hmax
      exact absurd hmax (by simp)

variable (hlen : len ≤ f.length) (hraw : 0 < rawLen) (hcs : rawLen ≤ cs) (hoff : cs ∣ off)
  (hdata : ∀ p < off + rawLen, f.isData p = true → p < len)
include hf hlen hraw hcs hoff hdata

theorem composeChunk_run (hc : Composable f n.chunks chain off rawLen) :
    run (exec L) (composeChunk top chain ex off rawLen) n =
        (.ok (viewChunk (overlay f (chainView n.chunks chain cs)) off rawLen), n) ∧
      Whole (overlay f (chainView n.chunks chain cs)) off rawLen := by
  set v := overlay f (chainView n.chunks chain cs) with hv
  rw [composeChunk]
  by_cases hcov : coversChunk ex off rawLen = true
  · have hall := (coversChunk_iff hex hraw hdata).1 hcov
    have hend := hdata _ (by omega) (hall (rawLen - 1) (by omega))
    obtain ⟨heq, hw⟩ := eq_viewChunk (v := v)
      (show ((range' off rawLen).map f.byteAt).length = rawLen by simp) fun i hi => by
        rw [SparseFile.getElem?_read f hi, hv, overlay, if_pos (hall i hi)]
    rw [if_pos hcov, readExactAt_run L hf (by omega), heq]
    exact ⟨rfl, hw⟩
  · have hbelow := hc.resolve_left (mt (coversChunk_iff hex hraw hdata).2 hcov)
    -- what the chain has below the chunk, as the composition reads it
    obtain ⟨base, hbase, hblen, hbi⟩ : ∃ base : Bytes,
        run (exec L) (readParentChunk (resolveParent chain off) rawLen) n = (.ok base, n) ∧
          base.length = rawLen ∧ ∀ i < rawLen, base[i]? = chainView n.chunks chain cs (off + i) := by
      rw [readParentChunk]
      cases hp : parentChunk? (resolveParent chain off) with
      | none =>
        refine ⟨replicate rawLen 0, rfl, by simp, fun i hi => ?_⟩
        rw [chainView_chunk _ _ hoff (by omega), hp]
        simp [chunkByte, hi]
      | some h =>
        obtain ⟨c, hch, hle⟩ := hbelow h hp
        refine ⟨c.take rawLen, by simp [exec, hch, hle], by simpa using hle, fun i hi => ?_⟩
        rw [chainView_chunk _ _ hoff (by omega), hp, getElem?_take, if_pos hi]
        simp [chunkByte, hch]
    have hpad : (Splice.pad 0 rawLen base).take rawLen = base := by
      rw [Splice.pad, hblen, Nat.sub_self, replicate_zero, append_nil, ← hblen,
        take_length]
    obtain ⟨r, hr, hrlen, hri⟩ := overlayFrom_run L hf off hlen ex base hex.bounded hblen
    obtain ⟨heq, hw⟩ := eq_viewChunk (v := v) hrlen fun i hi => by
      rw [hri i hi, hv, overlay]
      by_cases hd : f.isData (off + i) = true
      · rw [if_pos hd, if_pos ((extents_cover_iff hex (hdata _ (by omega) hd)).2 hd)]
      · rw [if_neg hd, if_neg, hbi i hi]
        rintro ⟨x, hx, h1, h2⟩
        exact hd (hex.data x hx _ h1 h2)
    rw [if_neg hcov, run_bind_of_ok _ _ hbase, overlayExtents, hpad, hr, heq]
    exact ⟨rfl, hw⟩

omit hf hlen hcs hoff in
theorem composeChunk_stuck (hc : ¬ Composable f n.chunks chain off rawLen) :
    ∃ e, run (exec L) (composeChunk top chain ex off rawLen) n = (.error e, n) := by
  rw [Composable, not_or] at hc
  obtain ⟨hpart, hbelow⟩ := hc
  push Not at hbelow
  obtain ⟨h, hp, hshort⟩ := hbelow
  have hcov : ¬ coversChunk ex off rawLen = true := mt (coversChunk_iff hex hraw hdata).1 hpart
  rw [composeChunk, if_neg hcov, readParentChunk, hp, run_bind]
  cases hch : n.chunks h with
  | none => exact ⟨.chunkMissing, by simp [exec, hch]⟩
  | some c =>
    have := hshort c hch
    exact ⟨.unexpectedEof, by simp [exec, hch, not_le.2 this]⟩

end Compose

end FeOS

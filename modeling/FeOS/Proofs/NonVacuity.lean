import Mathlib
import FeOS.Spec.Content
import FeOS.Spec.Sweep

/-! The hypotheses on the hash are satisfiable: a hash that keeps its input has no collision,
and its bytes end where the input's mark says. -/

namespace FeOS

open List

inductive SampleHash where
  | zero
  | of (b : Bytes)
  deriving DecidableEq, Repr

def markBytes : Bytes → Bytes
  | [] => [0]
  | x :: xs => 1 :: x :: markBytes xs

def SampleHash.asBytes : SampleHash → Bytes
  | zero => [0]
  | of b => 1 :: markBytes b

def sampleCrates : Crates SampleHash where
  blake3 := .of
  asBytes := SampleHash.asBytes
  zeroHash := .zero
  zstd := some

theorem markBytes_split : ∀ b b' x y : Bytes, markBytes b ++ x = markBytes b' ++ y → b = b' ∧ x = y
  | [], [], x, y, h => by simpa [markBytes] using h
  | [], _ :: _, x, y, h => by simp [markBytes] at h
  | _ :: _, [], x, y, h => by simp [markBytes] at h
  | a :: b, a' :: b', x, y, h => by
    simp only [markBytes, cons_append, cons.injEq, true_and] at h
    obtain ⟨rfl, hxy⟩ := markBytes_split b b' x y h.2
    exact ⟨by rw [h.1], hxy⟩

theorem sampleCrates_ideal : sampleCrates.Ideal where
  blake3_inj := fun a b h => by cases h; rfl
  asBytes_split := by
    rintro (_ | b) (_ | b') x y h
    · simpa [sampleCrates, SampleHash.asBytes] using h
    · simp [sampleCrates, SampleHash.asBytes] at h
    · simp [sampleCrates, SampleHash.asBytes] at h
    · simp only [sampleCrates, SampleHash.asBytes, cons_append, cons.injEq, true_and] at h
      obtain ⟨rfl, hxy⟩ := markBytes_split b b' x y h
      exact ⟨rfl, hxy⟩
  blake3_ne_zero := fun b h => by cases h

local instance lawfulBytes : LawfulBEq Bytes := inferInstance

/-- A node with the tops and the chunks given, and nothing else. -/
def sampleNode (tops : String → Option SparseFile) (chunks : List Bytes) : Node SampleHash where
  chunks
    | .of b => if b ∈ chunks then some b else none
    | .zero => none
  layers := fun _ => none
  files
    | .top pod => tops pod
    | .image _ => none
  rows := fun _ => none
  heads := fun _ => none
  unheaded := fun _ => false
  writes := fun _ => 0
  callerStays := none

theorem sampleNode_valid (tops : String → Option SparseFile) (chunks : List Bytes) :
    ChunksValid sampleCrates (sampleNode tops chunks).chunks := by
  rintro (_ | b) c h
  · cases h
  · simp only [sampleNode] at h
    split_ifs at h
    cases h
    rfl

def sampleDigest (c : Char) (h : c ∈ hexDigits) : Digest where
  hex := String.ofList (replicate 64 c)
  valid := by
    rw [String.toList_ofList]
    simp [isDigestHex, h]

theorem sampleDigest_ne {a b : Char} (ha : a ∈ hexDigits) (hb : b ∈ hexDigits) (hne : a ≠ b) :
    (sampleDigest a ha).hex ≠ (sampleDigest b hb).hex := by
  intro h
  have hl := String.ofList_injective h
  rw [replicate_right_inj (by decide)] at hl
  exact hne hl

def digestA : Digest := sampleDigest 'a' (by decide)

def digestB : Digest := sampleDigest 'b' (by decide)

def digestC : Digest := sampleDigest 'c' (by decide)

def chunkObject : StoredObject := ⟨⟨chunkKey digestC, 100, 0⟩, .bytes⟩

theorem digestA_ne_digestB : digestA.hex ≠ digestB.hex := sampleDigest_ne _ _ (by decide)

def failing (calls : List SweepCall) : SweepEnv :=
  ⟨fun c => if c ∈ calls then some "timeout" else none, fun _ => false⟩

end FeOS

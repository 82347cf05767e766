import Mathlib.Data.List.Basic

/-! UTF-8 over lists of bytes: the character a list begins with, and which of its bytes is a first one. -/

namespace Utf8

open List

open String (utf8EncodeChar)

variable {bytes : List UInt8} {c : Char} {i : ℕ}

/-- The character the bytes begin with. -/
def decode (bytes : List UInt8) : Option Char := bytes.toByteArray.utf8DecodeChar? 0

theorem decode_encode_append (c : Char) (l : List UInt8) : decode (utf8EncodeChar c ++ l) = some c := by
  rw [decode, toByteArray_append]
  exact ByteArray.utf8DecodeChar?_utf8EncodeChar_append

theorem encode_prefix_of_decode (h : decode bytes = some c) : utf8EncodeChar c <+: bytes := by
  obtain ⟨l, hl⟩ := ByteArray.exists_of_utf8DecodeChar?_eq_some h
  have hdata := congrArg (fun b => b.data.toList) hl
  simp only [data_toByteArray, ByteArray.data_append, Array.toList_append] at hdata
  exact ⟨l.data.toList, hdata.symm⟩

theorem isFirst_iff (h : utf8EncodeChar c <+: bytes) {b : UInt8} (hb : bytes[i]? = some b) (hi : i < c.utf8Size) :
    b.IsUTF8FirstByte ↔ i = 0 := by
  have hlen : i < (utf8EncodeChar c).length := by simpa using hi
  have hget := h.getElem hlen
  rw [getElem?_eq_some_iff] at hb
  obtain ⟨_, rfl⟩ := hb
  rw [← hget]
  exact UInt8.isUTF8FirstByte_getElem_utf8EncodeChar

end Utf8

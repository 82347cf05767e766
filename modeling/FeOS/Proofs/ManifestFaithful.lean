import FeOS.Spec.ManifestCodec
import FeOS.Lib.Calls
import FeOS.Sanity.LayerIds

/-! The binary form of a manifest: what is encoded decodes to itself, what is decoded encodes to the same bytes but
for those that the format ignores, and the bytes that a layer's id is made over tell the layer. -/

namespace FeOS

open List Crates

namespace ManifestCodec

variable {blake3 : Bytes → Hash32} {zstd : Bytes → Option Bytes} {L : Crates Hash32} {m m' : Manifest Hash32} {buf : Bytes}

/-! Numbers -/

theorem ofLeBytes_leBytes {w n : ℕ} (h : n < 256 ^ w) : ofLeBytes (leBytes w n) = n := by
  induction w generalizing n with
  | zero =>
    rw [pow_zero, Nat.lt_one_iff] at h
    rw [h]
    rfl
  | succ w ih =>
    have hrest : n / 256 < 256 ^ w := by
      rw [pow_succ] at h
      exact Nat.div_lt_of_lt_mul (by omega)
    have hlow : (UInt8.ofNat n).toNat = n % 256 := by simp
    rw [leBytes, ofLeBytes, ih hrest, hlow]
    omega

theorem ofLeBytes_lt (l : Bytes) : ofLeBytes l < 256 ^ l.length := by
  induction l with
  | nil => simp [ofLeBytes]
  | cons b l ih =>
    have hb : b.toNat < 256 := b.toNat_lt
    rw [ofLeBytes, length_cons, pow_succ]
    omega

theorem leBytes_ofLeBytes (l : Bytes) : leBytes l.length (ofLeBytes l) = l := by
  induction l with
  | nil => rfl
  | cons b l ih =>
    have hb : b.toNat < 256 := b.toNat_lt
    have hlow : UInt8.ofNat (b.toNat + 256 * ofLeBytes l) = b := by
      refine UInt8.toNat.inj ?_
      rw [UInt8.toNat_ofNat']
      omega
    have hrest : (b.toNat + 256 * ofLeBytes l) / 256 = ofLeBytes l := by omega
    rw [length_cons, ofLeBytes, leBytes, hlow, hrest, ih]

variable {l x y rest : Bytes} {len k off count : ℕ} {e : Entry Hash32} {prev : Option ℕ} {es : List (Entry Hash32)}

theorem leBytes_of_length {w : ℕ} (h : l.length = w) : leBytes w (ofLeBytes l) = l := by
  rw [← h]
  exact leBytes_ofLeBytes l

/-! Slices -/

theorem slice_here (h : x.length = len) : slice (x ++ y) 0 len = x := by
  rw [slice, drop_zero, ← h, take_left]

theorem slice_skip (h : x.length = k) : slice (x ++ y) (k + off) len = slice y off len := by
  rw [slice, slice, ← h, ← drop_drop, drop_left]

theorem length_slice (h : off + len ≤ buf.length) : (slice buf off len).length = len := by
  simp only [slice, length_take, length_drop]
  omega

theorem drop_eq_slice (buf : Bytes) (off len : ℕ) : buf.drop off = slice buf off len ++ buf.drop (off + len) := by
  rw [slice, ← drop_drop, take_append_drop]

theorem slice_of_isPrefix (h : x <+: y) (hlen : off + len ≤ x.length) :
    slice y off len = slice x off len := by
  obtain ⟨z, rfl⟩ := h
  rw [slice, slice, drop_append_of_le_length (by omega), take_append_of_le_length]
  rw [length_drop]
  omega

/-! Digests -/

theorem hashAt_eq {short : String} {h : Hash32} (hs : slice buf off 32 = h.val) : hashAt short buf off = .ok h := by
  have hlen : (slice buf off 32).length = 32 := by
    rw [hs]
    exact h.property
  rw [hashAt, dif_pos hlen]
  exact congrArg _ (Subtype.ext hs)

/-! Entries -/

theorem length_encodeEntry (e : Entry Hash32) : ((at32 blake3 zstd).encodeEntry e).length = entrySize := by
  simp only [encodeEntry, at32, length_append, length_leBytes, e.hash.property]
  rfl

theorem kindOf_toByte (k : EntryKind) : kindOf k.toByte = .ok k := by
  cases k <;> rfl

theorem of_kindOf {b : UInt8} {k : EntryKind} (h : kindOf b = .ok k) : k.toByte = b := by
  unfold kindOf at h
  split_ifs at h with h₀ h1
  · cases h
    exact h₀.symm
  · cases h
    exact h1.symm

structure EntryFields where
  offset : Bytes
  kind : UInt8
  reserved : Bytes
  hash : Hash32
  rawLen : Bytes
  compLen : Bytes
  lengths : offset.length = 8 ∧ reserved.length = 3 ∧ rawLen.length = 4 ∧ compLen.length = 4

def EntryFields.bytes (f : EntryFields) : Bytes :=
  f.offset ++ ([f.kind] ++ (f.reserved ++ (f.hash.val ++ (f.rawLen ++ f.compLen))))

theorem EntryFields.exists_of_length {b : Bytes} (h : b.length = entrySize) : ∃ f : EntryFields, f.bytes = b := by
  have hb : b.length = 52 := h
  have hlt : 8 < b.length := by omega
  refine ⟨⟨slice b 0 8, b[8], slice b 9 3, ⟨slice b 12 32, length_slice (by omega)⟩, slice b 44 4, slice b 48 4,
    length_slice (by omega), length_slice (by omega), length_slice (by omega), length_slice (by omega)⟩, ?_⟩
  have hkind : [b[8]] = slice b 8 1 := by
    rw [slice, drop_eq_getElem_cons hlt]
    rfl
  simp only [EntryFields.bytes, hkind]
  calc slice b 0 8 ++ (slice b 8 1 ++ (slice b 9 3 ++ (slice b 12 32 ++ (slice b 44 4 ++ slice b 48 4))))
      = slice b 0 8 ++ (slice b 8 1 ++ (slice b 9 3 ++ (slice b 12 32 ++ (slice b 44 4 ++ b.drop 48)))) := by
        rw [drop_eq_slice b 48 4, drop_eq_nil_of_le (by omega : b.length ≤ 48 + 4), append_nil]
    _ = b.drop 0 := by
        rw [← drop_eq_slice b 44 4, ← drop_eq_slice b 12 32, ← drop_eq_slice b 9 3, ← drop_eq_slice b 8 1,
          ← drop_eq_slice b 0 8]
    _ = b := drop_zero

theorem decodeEntry_bytes (f : EntryFields) : decodeEntry f.bytes =
    (kindOf f.kind).map fun kind => ⟨ofLeBytes f.offset, kind, f.hash, ofLeBytes f.rawLen, ofLeBytes f.compLen⟩ := by
  obtain ⟨hoff, hres, hraw, hcomp⟩ := f.lengths
  have hone : [f.kind].length = 1 := rfl
  have hoffset : slice f.bytes 0 8 = f.offset := slice_here hoff
  have hkind : f.bytes.getD 8 0 = f.kind := by
    rw [EntryFields.bytes, getD_eq_getElem?_getD, getElem?_append_right (by omega), hoff]
    rfl
  have hhash : slice f.bytes (8 + (1 + (3 + 0))) 32 = f.hash.val := by
    rw [EntryFields.bytes, slice_skip hoff, slice_skip hone, slice_skip hres, slice_here f.hash.property]
  have hrawLen : slice f.bytes (8 + (1 + (3 + (32 + 0)))) 4 = f.rawLen := by
    rw [EntryFields.bytes, slice_skip hoff, slice_skip hone, slice_skip hres, slice_skip f.hash.property, slice_here hraw]
  have hcompLen : slice f.bytes (8 + (1 + (3 + (32 + (4 + 0))))) 4 = f.compLen := by
    rw [EntryFields.bytes, slice_skip hoff, slice_skip hone, slice_skip hres, slice_skip f.hash.property, slice_skip hraw,
      slice, drop_zero, ← hcomp, take_length]
  unfold decodeEntry u64At u32At
  rw [hkind, hoffset, hashAt_eq hhash, hrawLen, hcompLen]
  cases kindOf f.kind <;> rfl

def fieldsOf (e : Entry Hash32) : EntryFields where
  offset := leBytes 8 e.offset
  kind := e.kind.toByte
  reserved := [0, 0, 0]
  hash := e.hash
  rawLen := leBytes 4 e.rawLen
  compLen := leBytes 4 e.compLen
  lengths := ⟨length_leBytes .., rfl, length_leBytes .., length_leBytes ..⟩

theorem encodeEntry_eq (e : Entry Hash32) : (at32 blake3 zstd).encodeEntry e = (fieldsOf e).bytes := by
  simp only [encodeEntry, at32, fieldsOf, EntryFields.bytes, append_assoc, cons_append, nil_append]

theorem decodeEntry_encodeEntry (he : e.Fits) :
    decodeEntry ((at32 blake3 zstd).encodeEntry e) = .ok e := by
  rw [encodeEntry_eq, decodeEntry_bytes]
  simp only [fieldsOf, kindOf_toByte, ofLeBytes_leBytes he.offset, ofLeBytes_leBytes he.rawLen, ofLeBytes_leBytes he.compLen]
  rfl

theorem of_decodeEntry_bytes {f : EntryFields} (h : decodeEntry f.bytes = .ok e) :
    e.Fits ∧ (fieldsOf e).bytes =
      { f with reserved := [0, 0, 0], lengths := ⟨f.lengths.1, rfl, f.lengths.2.2⟩ : EntryFields }.bytes := by
  obtain ⟨hoff, -, hraw, hcomp⟩ := f.lengths
  rw [decodeEntry_bytes, Results.map_eq_ok] at h
  obtain ⟨kind, hkind, rfl⟩ := h
  refine ⟨⟨?_, ?_, ?_⟩, ?_⟩
  · exact hoff ▸ ofLeBytes_lt f.offset
  · exact hraw ▸ ofLeBytes_lt f.rawLen
  · exact hcomp ▸ ofLeBytes_lt f.compLen
  · simp only [fieldsOf, EntryFields.bytes, of_kindOf hkind, leBytes_of_length hoff, leBytes_of_length hraw,
      leBytes_of_length hcomp]

/-! The entry table -/

theorem decodeEntries_encode : ∀ {es : List (Entry Hash32)} {prev : Option ℕ}, (∀ e ∈ es, e.Fits) →
    Keyed.Sorted Entry.offset es → (∀ e ∈ es, ∀ p ∈ prev, p < e.offset) →
    decodeEntries es.length prev (es.flatMap (at32 blake3 zstd).encodeEntry) = .ok es
  | [], _, _, _, _ => rfl
  | e :: es, prev, hfits, hsorted, hprev => by
    obtain ⟨hlt, hrest⟩ := pairwise_cons.1 hsorted
    have hlen : ((at32 blake3 zstd).encodeEntry e).length = entrySize := length_encodeEntry e
    have ih : decodeEntries es.length (some e.offset) (es.flatMap (at32 blake3 zstd).encodeEntry) = .ok es := by
      refine decodeEntries_encode (fun x hx => hfits x (mem_cons_of_mem e hx)) hrest fun x hx p hp => ?_
      cases hp
      exact hlt x hx
    have hfirst : (prev.any fun p => e.offset ≤ p) = false := by
      rw [Option.any_eq_false]
      intro p hp
      simpa using hprev e mem_cons_self p hp
    rw [flatMap_cons, length_cons, decodeEntries, ← hlen, take_left, drop_left,
      decodeEntry_encodeEntry (hfits e mem_cons_self)]
    simp only [bind, Except.bind, hfirst, Bool.false_eq_true, if_false, ih]
    rfl

theorem decodeEntries_succ (h : decodeEntries (count + 1) prev rest = .ok es) : ∃ e es', es = e :: es' ∧
      decodeEntry (rest.take entrySize) = .ok e ∧ (∀ p ∈ prev, p < e.offset) ∧
      decodeEntries count (some e.offset) (rest.drop entrySize) = .ok es' := by
  rw [decodeEntries] at h
  obtain ⟨e, he, h⟩ := Results.bind_eq_ok.1 h
  split_ifs at h with hprev
  · cases h
  · dsimp only at h
    obtain ⟨es', hes, ⟨⟩⟩ := Results.bind_eq_ok.1 h
    refine ⟨e, es', rfl, he, fun p hp => ?_, hes⟩
    rw [Option.mem_def.1 hp, Option.any_some, decide_eq_true_eq, not_le] at hprev
    exact hprev

theorem length_of_decodeEntries (h : decodeEntries count prev rest = .ok es) : es.length = count := by
  induction count generalizing prev rest es with
  | zero =>
    cases h
    rfl
  | succ count ih =>
    obtain ⟨e, es', rfl, -, -, hrest⟩ := decodeEntries_succ h
    rw [length_cons, ih hrest]

theorem sorted_of_decodeEntries (h : decodeEntries count prev rest = .ok es) :
    Keyed.Sorted Entry.offset es ∧ ∀ e ∈ es, ∀ p ∈ prev, p < e.offset := by
  induction count generalizing prev rest es with
  | zero =>
    cases h
    exact ⟨List.Pairwise.nil, nofun⟩
  | succ count ih =>
    obtain ⟨e, es', rfl, -, hprev, hrest⟩ := decodeEntries_succ h
    obtain ⟨hsorted, hfirst⟩ := ih hrest
    refine ⟨pairwise_cons.2 ⟨fun x hx => hfirst x hx _ rfl, hsorted⟩, fun x hx p hp => ?_⟩
    rcases mem_cons.1 hx with rfl | hx
    · exact hprev p hp
    · exact (hprev p hp).trans (hfirst x hx _ rfl)

/-! The bytes that the format ignores -/

def Ignored (i : ℕ) : Prop :=
  (12 ≤ i ∧ i < 16) ∨ (headerSize ≤ i ∧ 9 ≤ (i - headerSize) % entrySize ∧ (i - headerSize) % entrySize < 12)

instance (i : ℕ) : Decidable (Ignored i) := inferInstanceAs (Decidable (_ ∨ _))

def clearFrom (k : ℕ) (l : Bytes) : Bytes := l.mapIdx fun i b => if Ignored (k + i) then 0 else b

def clear (buf : Bytes) : Bytes := clearFrom 0 buf

theorem clearFrom_append (k : ℕ) (x y : Bytes) : clearFrom k (x ++ y) = clearFrom k x ++ clearFrom (k + x.length) y := by
  simp only [clearFrom, mapIdx_append]
  congr 2
  funext i b
  rw [show k + (i + x.length) = k + x.length + i by omega]

theorem clearFrom_eq_self (h : ∀ i < l.length, ¬ Ignored (k + i)) : clearFrom k l = l := by
  refine ext_getElem (by simp [clearFrom]) fun i hi _ => ?_
  simp only [clearFrom, getElem_mapIdx]
  rw [if_neg (h i (by simpa [clearFrom] using hi))]

theorem clearFrom_eq_zeros (h : ∀ i < l.length, Ignored (k + i)) : clearFrom k l = replicate l.length 0 := by
  refine ext_getElem (by simp [clearFrom]) fun i hi _ => ?_
  simp only [clearFrom, getElem_mapIdx, getElem_replicate]
  rw [if_pos (h i (by simpa [clearFrom] using hi))]

theorem clearFrom_entry (f : EntryFields) (j : ℕ) : clearFrom (headerSize + entrySize * j) f.bytes =
    { f with reserved := [0, 0, 0], lengths := ⟨f.lengths.1, rfl, f.lengths.2.2⟩ : EntryFields }.bytes := by
  obtain ⟨hoff, hres, hraw, hcomp⟩ := f.lengths
  generalize hk : headerSize + entrySize * j = k
  have hreserved : clearFrom (k + 9) f.reserved = [0, 0, 0] := by
    rw [clearFrom_eq_zeros, hres]
    · rfl
    · intro i hi
      simp only [Ignored, headerSize, entrySize] at hk ⊢
      omega
  -- no other byte of an entry is ignored
  have hkeep : ∀ {d : ℕ} {l : Bytes}, (d + l.length ≤ 9 ∨ 12 ≤ d) → d + l.length ≤ 52 → clearFrom (k + d) l = l := by
    intro d l hd hl
    refine clearFrom_eq_self fun i hi => ?_
    simp only [Ignored, headerSize, entrySize] at hk ⊢
    omega
  have hk₀ : clearFrom k f.offset = f.offset := hkeep (d := 0) (by omega) (by omega)
  have hk1 : clearFrom (k + 8) [f.kind] = [f.kind] := hkeep (by simp) (by simp)
  simp only [EntryFields.bytes, clearFrom_append, hoff, hres, hraw, f.hash.property, length_singleton, Nat.add_assoc,
    Nat.reduceAdd, hreserved, hk₀, hk1]
  rw [hkeep (by rw [f.hash.property]; decide) (by rw [f.hash.property]; decide), hkeep (by omega) (by omega),
    hkeep (by omega) (by omega)]

theorem encode_of_decodeEntries {j : ℕ}
    (h : decodeEntries count prev rest = .ok es) (hlen : rest.length = count * entrySize) :
    es.flatMap (at32 blake3 zstd).encodeEntry = clearFrom (headerSize + entrySize * j) rest := by
  induction count generalizing prev rest es j with
  | zero =>
    rw [Nat.zero_mul, length_eq_zero_iff] at hlen
    subst hlen
    cases h
    rfl
  | succ count ih =>
    obtain ⟨e, es', rfl, he, -, hrest⟩ := decodeEntries_succ h
    have htake : (rest.take entrySize).length = entrySize := by
      rw [length_take, hlen, Nat.succ_mul]
      omega
    have hdrop : (rest.drop entrySize).length = count * entrySize := by
      rw [length_drop, hlen, Nat.succ_mul]
      omega
    obtain ⟨f, hf⟩ := EntryFields.exists_of_length htake
    rw [← hf] at he
    rw [flatMap_cons, ih (j := j + 1) hrest hdrop, encodeEntry_eq, (of_decodeEntry_bytes he).2, ← clearFrom_entry f j, hf]
    conv_rhs => rw [← take_append_drop entrySize rest, clearFrom_append, htake]
    rw [Nat.mul_succ, Nat.add_assoc]

/-! The header -/

structure Fields where
  magic : Bytes
  version : Bytes
  flags : Bytes
  chunkSize : Bytes
  entryCount : Bytes
  logicalSize : Bytes
  parent : Hash32
  rest : Bytes
  lengths : magic.length = 8 ∧ version.length = 4 ∧ flags.length = 4 ∧ chunkSize.length = 4 ∧ entryCount.length = 4 ∧
    logicalSize.length = 8

def Fields.bytes (f : Fields) : Bytes :=
  f.magic ++ (f.version ++ (f.flags ++ (f.chunkSize ++ (f.entryCount ++ (f.logicalSize ++ (f.parent.val ++ f.rest))))))

theorem Fields.exists_of_length (h : headerSize ≤ buf.length) : ∃ f : Fields, f.bytes = buf := by
  have hbuf : 64 ≤ buf.length := h
  refine ⟨⟨slice buf 0 8, slice buf 8 4, slice buf 12 4, slice buf 16 4, slice buf 20 4, slice buf 24 8,
    ⟨slice buf 32 32, length_slice (by omega)⟩, buf.drop 64, length_slice (by omega), length_slice (by omega),
    length_slice (by omega), length_slice (by omega), length_slice (by omega), length_slice (by omega)⟩, ?_⟩
  simp only [Fields.bytes]
  rw [← drop_eq_slice buf 32 32, ← drop_eq_slice buf 24 8, ← drop_eq_slice buf 20 4, ← drop_eq_slice buf 16 4,
    ← drop_eq_slice buf 12 4, ← drop_eq_slice buf 8 4, ← drop_eq_slice buf 0 8, drop_zero]

theorem Fields.length_bytes (f : Fields) : f.bytes.length = headerSize + f.rest.length := by
  obtain ⟨hmagic, hversion, hflags, hchunk, hcount, hlogical⟩ := f.lengths
  simp only [Fields.bytes, length_append, hmagic, hversion, hflags, hchunk, hcount, hlogical, f.parent.property, headerSize]
  omega

theorem slice_entryCount (f : Fields) : slice f.bytes 20 4 = f.entryCount := by
  obtain ⟨hmagic, hversion, hflags, hchunk, hcount, -⟩ := f.lengths
  show slice f.bytes (8 + (4 + (4 + (4 + 0)))) 4 = f.entryCount
  rw [Fields.bytes, slice_skip hmagic, slice_skip hversion, slice_skip hflags, slice_skip hchunk, slice_here hcount]

theorem decode_bytes (f : Fields) : decode f.bytes = if f.magic ≠ magic then .error "bad magic"
    else if ofLeBytes f.version ≠ version then .error s!"version {ofLeBytes f.version}"
    else if f.bytes.length ≠ headerSize + ofLeBytes f.entryCount * entrySize then
      .error s!"size {f.bytes.length} != expected {headerSize + ofLeBytes f.entryCount * entrySize}"
    else (decodeEntries (ofLeBytes f.entryCount) none f.rest).map fun entries =>
      ⟨ofLeBytes f.chunkSize, ofLeBytes f.logicalSize, parentOf f.parent, entries⟩ := by
  obtain ⟨hmagic, hversion, hflags, hchunk, hcount, hlogical⟩ := f.lengths
  have hparent := f.parent.property
  have hheader : ¬ f.bytes.length < headerSize := by
    rw [f.length_bytes]
    omega
  have h1 : slice f.bytes 0 8 = f.magic := slice_here hmagic
  have h2 : slice f.bytes (8 + 0) 4 = f.version := by
    rw [Fields.bytes, slice_skip hmagic, slice_here hversion]
  have h3 : slice f.bytes (8 + (4 + (4 + 0))) 4 = f.chunkSize := by
    rw [Fields.bytes, slice_skip hmagic, slice_skip hversion, slice_skip hflags, slice_here hchunk]
  have h4 : slice f.bytes 20 4 = f.entryCount := slice_entryCount f
  have h5 : slice f.bytes (8 + (4 + (4 + (4 + (4 + 0))))) 8 = f.logicalSize := by
    rw [Fields.bytes, slice_skip hmagic, slice_skip hversion, slice_skip hflags, slice_skip hchunk, slice_skip hcount,
      slice_here hlogical]
  have h6 : slice f.bytes (8 + (4 + (4 + (4 + (4 + (8 + 0)))))) 32 = f.parent.val := by
    rw [Fields.bytes, slice_skip hmagic, slice_skip hversion, slice_skip hflags, slice_skip hchunk, slice_skip hcount,
      slice_skip hlogical, slice_here hparent]
  have h7 : f.bytes.drop headerSize = f.rest := by
    have hsplit : f.bytes = (f.magic ++ f.version ++ f.flags ++ f.chunkSize ++ f.entryCount ++ f.logicalSize ++
        f.parent.val) ++
        f.rest := by
      simp only [Fields.bytes, append_assoc]
    rw [hsplit]
    refine drop_left' ?_
    simp only [length_append, hmagic, hversion, hflags, hchunk, hcount, hlogical, hparent]
    rfl
  unfold decode u64At u32At
  rw [if_neg hheader, h1, h2, h3, h4, h5, hashAt_eq h6, h7]
  simp only [bind, Except.bind]
  split_ifs <;> rfl

theorem of_decode (h : decode buf = .ok m) : ∃ f : Fields, f.bytes = buf ∧ f.magic = magic ∧ ofLeBytes f.version = version ∧
    f.rest.length = ofLeBytes f.entryCount * entrySize ∧ decodeEntries (ofLeBytes f.entryCount) none f.rest = .ok m.entries ∧
    m = ⟨ofLeBytes f.chunkSize, ofLeBytes f.logicalSize, parentOf f.parent, m.entries⟩ := by
  have hlen : headerSize ≤ buf.length := by
    by_contra hlt
    unfold decode at h
    rw [if_pos (not_le.1 hlt)] at h
    cases h
  obtain ⟨f, rfl⟩ := Fields.exists_of_length hlen
  rw [decode_bytes] at h
  split_ifs at h with hmagic hversion hsize
  obtain ⟨es, hes, rfl⟩ := Results.map_eq_ok.1 h
  refine ⟨f, rfl, not_not.1 hmagic, not_not.1 hversion, ?_, hes, rfl⟩
  have hrest := f.length_bytes
  omega

/-! Manifests -/

/-- The manifest's numbers are of the widths the source gives them. -/
structure Fits (m : Manifest Hash32) : Prop where
  logicalSize : m.logicalSize < 256 ^ 8
  chunkSize : m.chunkSize < 256 ^ 4
  entries : ∀ e ∈ m.entries, e.Fits

/-- A manifest as the store makes it: its offsets strictly increase, its entries are counted in 32 bits, and its
parent is not the id that stands for none. -/
structure WellFormed (m : Manifest Hash32) : Prop extends Fits m where
  sorted : Keyed.Sorted Entry.offset m.entries
  count : m.entries.length < 2 ^ 32
  parent : m.parent ≠ some .zero

def fields (m : Manifest Hash32) (rest : Bytes) : Fields where
  magic := magic
  version := leBytes 4 version
  flags := leBytes 4 0
  chunkSize := leBytes 4 m.chunkSize
  entryCount := leBytes 4 m.entries.length
  logicalSize := leBytes 8 m.logicalSize
  parent := m.parent.getD .zero
  rest := rest
  lengths := ⟨rfl, length_leBytes .., length_leBytes .., length_leBytes .., length_leBytes .., length_leBytes ..⟩

theorem encode_eq (m : Manifest Hash32) : encode (at32 blake3 zstd) m =
    (fields m (m.entries.flatMap (at32 blake3 zstd).encodeEntry)).bytes := by
  have hparent : (m.parent.map Subtype.val).getD (replicate 32 0) = (m.parent.getD .zero).val := by
    cases m.parent <;> rfl
  simp only [encode, fields, Fields.bytes, hparent, append_assoc]

theorem length_encodeEntries (es : List (Entry Hash32)) :
    (es.flatMap (at32 blake3 zstd).encodeEntry).length = es.length * entrySize := by
  induction es with
  | nil => rfl
  | cons e es ih =>
    rw [flatMap_cons, length_append, length_encodeEntry, ih, length_cons, Nat.succ_mul]
    omega

theorem decode_encode (h : WellFormed m) : decode (encode (at32 blake3 zstd) m) = .ok m := by
  have hversion : ofLeBytes (leBytes 4 version) = version := ofLeBytes_leBytes (by decide)
  have hcount : ofLeBytes (leBytes 4 m.entries.length) = m.entries.length := ofLeBytes_leBytes h.count
  have hparent : parentOf (m.parent.getD .zero) = m.parent := by
    cases hp : m.parent with
    | none => rfl
    | some p =>
      have hne : p ≠ .zero := fun heq => h.parent (by rw [hp, heq])
      rw [Option.getD_some, parentOf, if_neg hne]
  have hentries : decodeEntries m.entries.length none (m.entries.flatMap (at32 blake3 zstd).encodeEntry) = .ok m.entries :=
    decodeEntries_encode h.entries h.sorted nofun
  have hlen : (fields m (m.entries.flatMap (at32 blake3 zstd).encodeEntry)).bytes.length =
      headerSize + m.entries.length * entrySize := by
    rw [Fields.length_bytes, fields, length_encodeEntries]
  rw [encode_eq, decode_bytes]
  simp only [fields] at hlen ⊢
  simp only [hversion, hcount, hlen, hentries, ofLeBytes_leBytes h.chunkSize, ofLeBytes_leBytes h.logicalSize, hparent,
    ne_eq, not_true_eq_false, if_false]
  rfl

theorem encode_of_decode (h : decode buf = .ok m) : encode (at32 blake3 zstd) m = clear buf := by
  obtain ⟨f, rfl, hmagic, hversion, hrest, hentries, hm⟩ := of_decode h
  obtain ⟨hlmagic, hlversion, hlflags, hlchunk, hlcount, hllogical⟩ := f.lengths
  have hlparent := f.parent.property
  have hencoded : m.entries.flatMap (at32 blake3 zstd).encodeEntry = clearFrom headerSize f.rest :=
    encode_of_decodeEntries (j := 0) hentries hrest
  have hversionBytes : leBytes 4 version = f.version := by
    rw [← hversion, leBytes_of_length hlversion]
  have hparent : m.parent.getD .zero = f.parent := by
    rw [hm]
    unfold parentOf
    split_ifs with hzero
    · exact hzero.symm
    · rfl
  have hchunk : leBytes 4 m.chunkSize = f.chunkSize := by
    rw [hm, leBytes_of_length hlchunk]
  have hlogical : leBytes 8 m.logicalSize = f.logicalSize := by
    rw [hm, leBytes_of_length hllogical]
  have hcount : leBytes 4 m.entries.length = f.entryCount := by
    rw [length_of_decodeEntries hentries, leBytes_of_length hlcount]
  have hflags : clearFrom 12 f.flags = leBytes 4 0 := by
    rw [clearFrom_eq_zeros, hlflags]
    · rfl
    · intro i hi
      simp only [Ignored]
      omega
  -- no other byte of the header is ignored
  have hkeep : ∀ {k : ℕ} {l : Bytes}, (k + l.length ≤ 12 ∨ 16 ≤ k) → k + l.length ≤ 64 → clearFrom k l = l := by
    intro k l hk hl
    refine clearFrom_eq_self fun i hi => ?_
    simp only [Ignored, headerSize, entrySize]
    omega
  have hk₀ : clearFrom 0 f.magic = f.magic := hkeep (by omega) (by omega)
  have hk1 : clearFrom 8 f.version = f.version := hkeep (by omega) (by omega)
  have hk2 : clearFrom 16 f.chunkSize = f.chunkSize := hkeep (by omega) (by omega)
  have hk3 : clearFrom 20 f.entryCount = f.entryCount := hkeep (by omega) (by omega)
  have hk4 : clearFrom 24 f.logicalSize = f.logicalSize := hkeep (by omega) (by omega)
  have hk5 : clearFrom 32 f.parent.val = f.parent.val := hkeep (by omega) (by omega)
  rw [encode_eq, hencoded]
  simp only [fields, Fields.bytes, clear, clearFrom_append, hlmagic, hlversion, hlflags, hlchunk, hlcount,
    hllogical, hlparent,
    hversionBytes, hparent, hchunk, hlogical, hcount, Nat.zero_add, Nat.reduceAdd, hflags, hk₀, hk1, hk2, hk3,
      hk4, hk5, ← hmagic]
  rfl

theorem length_of_decode (h : decode buf = .ok m) : headerSize ≤ buf.length ∧
    buf.length = headerSize + ofLeBytes (slice buf 20 4) * entrySize := by
  obtain ⟨f, rfl, -, -, hrest, -, -⟩ := of_decode h
  rw [slice_entryCount, f.length_bytes, hrest]
  omega

theorem decode_of_cut (hcount : m.entries.length < 2 ^ 32) (hne : buf ≠ encode (at32 blake3 zstd) m)
    (hcut : buf <+: encode (at32 blake3 zstd) m ∨ encode (at32 blake3 zstd) m <+: buf) :
    ∃ err, decode buf = .error err := by
  cases hdecode : decode buf with
  | error err => exact ⟨err, rfl⟩
  | ok m' =>
    obtain ⟨hheader, hlen⟩ := length_of_decode hdecode
    have hheader' : 64 ≤ buf.length := hheader
    have hencoded : (encode (at32 blake3 zstd) m).length = headerSize + m.entries.length * entrySize := by
      rw [encode_eq, Fields.length_bytes, fields, length_encodeEntries]
    have hsize : headerSize = 64 := rfl
    have hslice : slice (encode (at32 blake3 zstd) m) 20 4 = leBytes 4 m.entries.length := by
      rw [encode_eq, slice_entryCount]
      rfl
    -- both have the same header, so the same number of entries
    have hsame : slice buf 20 4 = slice (encode (at32 blake3 zstd) m) 20 4 := by
      rcases hcut with hcut | hcut
      · exact (slice_of_isPrefix hcut (by omega)).symm
      · exact slice_of_isPrefix hcut (by omega)
    rw [hsame, hslice, ofLeBytes_leBytes hcount, ← hencoded] at hlen
    refine absurd ?_ hne
    rcases hcut with hcut | hcut
    · exact hcut.eq_of_length hlen
    · exact (hcut.eq_of_length hlen.symm).symm

theorem layerPreimage_inj (hm : Fits m) (hm' : Fits m') (hp : m.parent ≠ some .zero) (hp' : m'.parent ≠ some .zero)
    (h : (at32 blake3 zstd).layerPreimage m = (at32 blake3 zstd).layerPreimage m') : m = m' := by
  have hsplits : (at32 blake3 zstd).Splits := by
    intro a b x y hab
    obtain ⟨heq, hrest⟩ := append_inj hab (a.property.trans b.property.symm)
    exact ⟨Subtype.ext heq, hrest⟩
  simp only [layerPreimage, append_assoc] at h
  obtain ⟨hlogical, h⟩ := append_inj h (by simp only [length_leBytes])
  obtain ⟨hchunk, h⟩ := append_inj h (by simp only [length_leBytes])
  obtain ⟨hparent, h⟩ := hsplits _ _ _ _ h
  have hparents : m.parent = m'.parent := by
    cases ha : m.parent with
    | none =>
      cases hb : m'.parent with
      | none => rfl
      | some b =>
        rw [ha, hb] at hparent
        exact absurd (hb.trans (congrArg some hparent.symm)) hp'
    | some a =>
      cases hb : m'.parent with
      | none =>
        rw [ha, hb] at hparent
        exact absurd (ha.trans (congrArg some hparent)) hp
      | some b =>
        rw [ha, hb] at hparent
        exact congrArg some hparent
  exact Manifest.ext (leBytes_inj hm.chunkSize hm'.chunkSize hchunk) (leBytes_inj hm.logicalSize hm'.logicalSize hlogical)
    hparents (encodeEntries_inj hsplits hm.entries hm'.entries h)

/-! The lookup -/

theorem entryAt_eq_some (hsorted : Keyed.Sorted Entry.offset m.entries) {offset : ℕ} :
    entryAt m offset = some e ↔ e ∈ m.entries ∧ e.offset = offset := by
  have hget : ∀ {i : ℕ} (hi : i < m.entries.length), (m.entries.map Entry.offset).getD i 0 = (m.entries[i]).offset := by
    intro i hi
    rw [getD_eq_getElem?_getD, getElem?_map, getElem?_eq_getElem hi]
    rfl
  have hlt : ∀ {i j : ℕ} (_ : i < j) (hj : j < m.entries.length), (m.entries[i]).offset < (m.entries[j]).offset :=
    fun hij hj => pairwise_iff_getElem.1 hsorted _ _ _ hj hij
  have hfound : ∀ k < m.entries.length, compare ((m.entries.map Entry.offset).getD k 0) offset = .eq →
      BinarySearch.Found (fun i => compare ((m.entries.map Entry.offset).getD i 0) offset) m.entries.length k := by
    intro k hk heq
    rw [hget hk, Nat.compare_eq_eq] at heq
    refine ⟨hk, ?_, fun i hi => ?_, fun i hi hn => ?_⟩
    · rw [hget hk, Nat.compare_eq_eq]
      exact heq
    · have hless := hlt hi hk
      rw [hget (hi.trans hk), Ne, Nat.compare_eq_gt]
      omega
    · have hmore := hlt hi hn
      rw [hget hn, Nat.compare_eq_gt]
      omega
  unfold entryAt
  rw [Option.bind_eq_some_iff]
  constructor
  · rintro ⟨i, hsearch, hi⟩
    obtain ⟨hlen, heq⟩ := (BinarySearch.search_eq_some hfound).1 hsearch
    rw [hget hlen, Nat.compare_eq_eq] at heq
    rw [getElem?_eq_getElem hlen] at hi
    cases hi
    exact ⟨getElem_mem hlen, heq⟩
  · rintro ⟨hmem, rfl⟩
    obtain ⟨i, hi, rfl⟩ := mem_iff_getElem.1 hmem
    refine ⟨i, (BinarySearch.search_eq_some hfound).2 ⟨hi, ?_⟩, getElem?_eq_getElem hi⟩
    rw [hget hi, Nat.compare_eq_eq]

/-- Whatever blake3 and zstd are. -/
theorem manifest_codec_faithful (blake3 : Bytes → Hash32) (zstd : Bytes → Option Bytes) :
    (∀ m : Manifest Hash32, WellFormed m → ∃ m', decode (encode (at32 blake3 zstd) m) = .ok m' ∧ m' = m ∧
      (at32 blake3 zstd).layerId m' = (at32 blake3 zstd).layerId m) ∧
    (∀ (buf : Bytes) (m : Manifest Hash32), decode buf = .ok m → encode (at32 blake3 zstd) m = clear buf ∧
      Keyed.Sorted Entry.offset m.entries ∧
      ∀ (offset : ℕ) (e : Entry Hash32), entryAt m offset = some e ↔ e ∈ m.entries ∧ e.offset = offset) ∧
    (∀ (m : Manifest Hash32) (buf : Bytes), m.entries.length < 2 ^ 32 → buf ≠ encode (at32 blake3 zstd) m →
      (buf <+: encode (at32 blake3 zstd) m ∨ encode (at32 blake3 zstd) m <+: buf) →
      ∃ err, decode buf = .error err) ∧
    ∀ m m' : Manifest Hash32, Fits m → Fits m' → m.parent ≠ some .zero → m'.parent ≠ some .zero →
      ((at32 blake3 zstd).layerPreimage m = (at32 blake3 zstd).layerPreimage m' ↔ m = m') := by
  refine ⟨fun m h => ⟨m, decode_encode h, rfl, rfl⟩, fun buf m h => ?_, fun m buf => decode_of_cut,
    fun m m' hm hm' hp hp' => ?_⟩
  · obtain ⟨f, -, -, -, -, hentries, -⟩ := of_decode h
    have hsorted := (sorted_of_decodeEntries hentries).1
    exact ⟨encode_of_decode h, hsorted, fun offset e => entryAt_eq_some hsorted⟩
  · exact ⟨layerPreimage_inj hm hm' hp hp', fun h => by rw [h]⟩

def sampleLayer : Manifest Hash32 :=
  ⟨65536, 131072, some ⟨replicate 32 9, rfl⟩, [.data 0 ⟨replicate 32 7, rfl⟩ 65536 100, ⟨65536, .zero, .zero, 65536, 0⟩]⟩

theorem sampleLayer_wellFormed : WellFormed sampleLayer where
  logicalSize := by decide
  chunkSize := by decide
  entries := by
    intro e he
    simp only [sampleLayer, mem_cons, not_mem_nil, or_false] at he
    rcases he with rfl | rfl
    · exact ⟨by decide, by decide, by decide⟩
    · exact ⟨by decide, by decide, by decide⟩
  sorted := by decide
  count := by decide
  parent := by decide

theorem manifest_codec_faithful_sample :
    (∃ m', decode (encode (at32 (fun _ => .zero) some) sampleLayer) = .ok m' ∧ m' = sampleLayer ∧
      (at32 (fun _ => .zero) some).layerId m' = (at32 (fun _ => .zero) some).layerId sampleLayer) ∧
    ∃ err, decode (encode (at32 (fun _ => .zero) some) sampleLayer ++ [0]) = .error err := by
  obtain ⟨hround, -, hcut, -⟩ := manifest_codec_faithful (fun _ => .zero) some
  exact ⟨hround sampleLayer sampleLayer_wellFormed,
    hcut sampleLayer _ (by decide) (by simp) (.inr (prefix_append _ _))⟩

/-- A parent that is the all-zero id comes back as none. -/
theorem zero_parent_is_lost : decode (encode (at32 (fun _ => .zero) some) ⟨65536, 65536, some .zero, []⟩) =
    .ok ⟨65536, 65536, none, []⟩ := by
  decide +kernel

end ManifestCodec

end FeOS

import PageDb.Disk.PageImage
import PageDb.Proofs.Action

/-!
Reading back page images: what `PageImage.encode` writes, `PageImage.decode` reads as the same rows.

A reader is described by `Reads r bytes a`: whatever follows `bytes`, the reader takes exactly
`bytes` and answers `a`.
-/

namespace PageDb

namespace PageImage

/-! ## Numbers -/

theorem length_littleEndian (width n : Nat) : (littleEndian width n).length = width := by
  induction width generalizing n with
  | zero => rfl
  | succ width ih => simp [littleEndian, ih]

theorem ofLittleEndian_littleEndian (width n : Nat) (h : n < Nat.pow 256 width) :
    ofLittleEndian (littleEndian width n) = n := by
  induction width generalizing n with
  | zero =>
    have hn : n = 0 := by simpa using h
    simp [littleEndian, ofLittleEndian, hn]
  | succ width ih =>
    have hdiv : n / 256 < Nat.pow 256 width := by
      apply Nat.div_lt_of_lt_mul
      calc n < Nat.pow 256 (width + 1) := h
        _ = 256 * Nat.pow 256 width := by simp [Nat.pow_succ, Nat.mul_comm]
    have hlow : (UInt8.ofNat (n % 256)).toNat = n % 256 := by simp
    rw [littleEndian, ofLittleEndian, ih _ hdiv, hlow]
    omega

theorem ofLittleEndian_four {n : Nat} (h : n < limit32) :
    ofLittleEndian (littleEndian 4 n) = n :=
  ofLittleEndian_littleEndian 4 n h

theorem counted_eq_ok {field : ImageField} {n : Nat} {bytes : List UInt8} :
    counted field n = .ok bytes ↔ n < limit32 ∧ bytes = littleEndian 4 n := by
  unfold counted
  split
  · rename_i hlt
    simp [hlt, eq_comm]
  · rename_i hge
    simp [hge]

/-! ## Readers -/

/-- The reader takes `bytes`, whatever follows them, and answers `a`. -/
def Reads {α : Type} (r : Reader α) (bytes : List UInt8) (a : α) : Prop :=
  ∀ rest, r.run (bytes ++ rest) = .ok (a, rest)

namespace Reads

variable {α β : Type}

theorem pure (a : α) : Reads (Pure.pure a) [] a := fun _ => rfl

theorem bind {r : Reader α} {f : α → Reader β} {bytes more : List UInt8} {a : α} {b : β}
    (hr : Reads r bytes a) (hf : Reads (f a) more b) : Reads (r >>= f) (bytes ++ more) b := by
  intro rest
  rw [StateT.run_bind, List.append_assoc, hr]
  exact hf rest

theorem map {r : Reader α} {bytes : List UInt8} {a : α} (f : α → β) (hr : Reads r bytes a) :
    Reads (do return f (← r)) bytes (f a) := by
  simpa using hr.bind (f := fun a => Pure.pure (f a)) (pure (f a))

end Reads

theorem reads_take (field : ImageField) {bytes : List UInt8} {count : Nat}
    (h : bytes.length = count) : Reads (take field count) bytes bytes := by
  intro rest
  subst h
  simp [take, StateT.run]

theorem reads_takeNumber (field : ImageField) (width : Nat) {n : Nat} (h : n < Nat.pow 256 width) :
    Reads (takeNumber field width) (littleEndian width n) n := by
  have hread := (reads_take field (length_littleEndian width n)).map ofLittleEndian
  rwa [ofLittleEndian_littleEndian width n h] at hread

/-! ## Entries -/

theorem reads_takeEntry (tag : Nat) {bytes : List UInt8} {e : Entry} (htag : tag < 256)
    (h : Reads (takeValue tag) bytes e) : Reads takeEntry (UInt8.ofNat tag :: bytes) e := by
  have htag' : tag < Nat.pow 256 1 := htag
  have hread := (reads_takeNumber .tag 1 htag').bind h
  have hbytes : littleEndian 1 tag = [UInt8.ofNat tag] := by
    simp [littleEndian, Nat.mod_eq_of_lt htag]
  rwa [hbytes] at hread

theorem reads_takeText {s : String} (h : (Utf8.encode s).length < limit32) :
    Reads (takeValue 5) (littleEndian 4 (Utf8.encode s).length ++ Utf8.encode s) (.text s) := by
  intro rest
  have hlength := reads_takeNumber .textLength 4 h (Utf8.encode s ++ rest)
  have hpayload := reads_take .text (rfl : (Utf8.encode s).length = _) rest
  rw [List.append_assoc]
  simp only [takeValue, StateT.run_bind, hlength, Result.ok_bind, hpayload, Utf8.decode_encode]
  rfl

theorem reads_encodeEntry {e : Entry} {bytes : List UInt8} (h : encodeEntry e = .ok bytes) :
    Reads takeEntry bytes e := by
  cases e with
  | null =>
    obtain rfl : [0] = bytes := by simpa [encodeEntry] using h
    exact reads_takeEntry 0 (by decide) (Reads.pure Entry.null)
  | int v =>
    obtain rfl : 1 :: littleEndian 4 v.toUInt32.toNat = bytes := by simpa [encodeEntry] using h
    have hread := (reads_takeNumber .int 4 v.toUInt32.toNat_lt).map
      fun n => Entry.int (UInt32.ofNat n).toInt32
    simp only [UInt32.ofNat_toNat] at hread
    exact reads_takeEntry 1 (by decide) hread
  | long v =>
    obtain rfl : 2 :: littleEndian 8 v.toUInt64.toNat = bytes := by simpa [encodeEntry] using h
    have hread := (reads_takeNumber .long 8 v.toUInt64.toNat_lt).map
      fun n => Entry.long (UInt64.ofNat n).toInt64
    simp only [UInt64.ofNat_toNat] at hread
    exact reads_takeEntry 2 (by decide) hread
  | float v =>
    obtain rfl : 3 :: littleEndian 4 v.toNat = bytes := by simpa [encodeEntry] using h
    have hread := (reads_takeNumber .float 4 v.bits.isLt).map
      fun n => Entry.float ⟨BitVec.ofNat _ n⟩
    simp only [BitVec.ofNat_toNat, BitVec.setWidth_eq] at hread
    exact reads_takeEntry 3 (by decide) hread
  | double v =>
    obtain rfl : 4 :: littleEndian 8 v.toNat = bytes := by simpa [encodeEntry] using h
    have hread := (reads_takeNumber .double 8 v.bits.isLt).map
      fun n => Entry.double ⟨BitVec.ofNat _ n⟩
    simp only [BitVec.ofNat_toNat, BitVec.setWidth_eq] at hread
    exact reads_takeEntry 4 (by decide) hread
  | text s =>
    simp only [encodeEntry] at h
    cases hlen : counted .textLength (Utf8.encode s).length with
    | error e => simp [hlen, bind, Except.bind] at h
    | ok length =>
      obtain ⟨hlt, rfl⟩ := counted_eq_ok.1 hlen
      obtain rfl : 5 :: (littleEndian 4 (Utf8.encode s).length ++ Utf8.encode s) = bytes := by
        simpa [hlen, bind, Except.bind] using h
      exact reads_takeEntry 5 (by decide) (reads_takeText hlt)

/-! ## Rows and images -/

/-- A sequence of things is read one by one, whatever function writes each of them. -/
theorem reads_takeMany {α : Type} {one : Reader α} (encodeOne : α → Result (List UInt8))
    (encodeAll : List α → Result (List UInt8)) (hnil : encodeAll [] = .ok [])
    (hcons : ∀ a rest, encodeAll (a :: rest) = do
      let bytes ← encodeOne a
      let more ← encodeAll rest
      .ok (bytes ++ more))
    (hone : ∀ {a bytes}, encodeOne a = .ok bytes → Reads one bytes a)
    {xs : List α} {bytes : List UInt8} (h : encodeAll xs = .ok bytes) :
    Reads (takeMany one xs.length) bytes xs := by
  induction xs generalizing bytes with
  | nil =>
    rw [hnil] at h
    cases h
    exact Reads.pure []
  | cons a rest ih =>
    rw [hcons] at h
    cases hfirst : encodeOne a with
    | error e => simp [hfirst, bind, Except.bind] at h
    | ok first =>
      cases hmore : encodeAll rest with
      | error e => simp [hfirst, hmore, bind, Except.bind] at h
      | ok more =>
        obtain rfl : first ++ more = bytes := by simpa [hfirst, hmore, bind, Except.bind] using h
        exact (hone hfirst).bind ((ih hmore).map (a :: ·))

theorem reads_encodeRow {r : Row} {bytes : List UInt8} (h : encodeRow r = .ok bytes) :
    Reads takeRow bytes r := by
  obtain ⟨entries, position⟩ := r
  unfold encodeRow at h
  split at h
  · cases h
  rename_i hwidth
  obtain ⟨front, hfront, h⟩ := Result.bind_eq_ok.1 h
  obtain ⟨hlt, rfl⟩ := counted_eq_ok.1 hfront
  obtain ⟨body, hbody, h⟩ := Result.bind_eq_ok.1 h
  have hbytes : (littleEndian 4 position ++ littleEndian 2 entries.length) ++ body = bytes := by
    simpa using h
  have hcount : ofLittleEndian (littleEndian 2 entries.length) = entries.length :=
    ofLittleEndian_littleEndian 2 _ (Nat.not_le.1 hwidth)
  have hheader : (littleEndian 4 position ++ littleEndian 2 entries.length).length = 6 := by
    simp [length_littleEndian]
  have hfirst : (littleEndian 4 position ++ littleEndian 2 entries.length).take 4
      = littleEndian 4 position := List.take_left' (length_littleEndian 4 position)
  have hsecond : (littleEndian 4 position ++ littleEndian 2 entries.length).drop 4
      = littleEndian 2 entries.length := List.drop_left' (length_littleEndian 4 position)
  rw [← hbytes]
  refine (reads_take .rowHeader hheader).bind ?_
  rw [hfirst, hsecond, hcount, ofLittleEndian_four hlt]
  exact (reads_takeMany encodeEntry encodeEntries rfl (fun _ _ => rfl) reads_encodeEntry
    hbody).map (Row.mk · position)

theorem reads_encode {rows : List Row} {image : List UInt8} (h : encode rows = .ok image) :
    Reads takeImage image rows := by
  obtain ⟨count, hcount, h⟩ := Result.bind_eq_ok.1 h
  obtain ⟨hlt, rfl⟩ := counted_eq_ok.1 hcount
  obtain ⟨body, hbody, h⟩ := Result.bind_eq_ok.1 h
  have himage : (magic ++ littleEndian 2 version ++ littleEndian 4 rows.length) ++ body = image := by
    simpa using h
  rw [← himage]
  refine (reads_take .header (by simp [length_littleEndian, magic])).bind ?_
  have hrest : (magic ++ littleEndian 2 version ++ littleEndian 4 rows.length).drop 6
      = littleEndian 4 rows.length := rfl
  rw [hrest, ofLittleEndian_four hlt]
  exact reads_takeMany encodeRow encodeRows rfl (fun _ _ => rfl) reads_encodeRow hbody

/-- Bytes that are read to their end are the image of what is read. -/
theorem Reads.decode {rows : List Row} {image : List UInt8} (h : Reads takeImage image rows) :
    decode image = .ok rows := by
  have hrun := h []
  rw [List.append_nil] at hrun
  simp [PageImage.decode, hrun]

/-- Decoding gives back the rows of every page that has an image: the same number in the same
order, and in each the position and the entries, of the same kinds and with the same bits. -/
theorem decode_encode_rows {rows : List Row} {image : List UInt8} (h : encode rows = .ok image) :
    decode image = .ok rows :=
  (reads_encode h).decode

/-- Entries of every kind, with a NaN that carries a payload, a zero with a sign and a text of
several bytes a character, on pages of their own. -/
theorem decode_encode_every_kind :
    (encode [⟨[.int (-1), .long 1, .null], 3⟩, ⟨[], 0⟩,
        ⟨[.float ⟨0xFFA00001⟩, .double ⟨0x8000000000000000⟩, .text "né"], 7⟩]).bind decode =
      .ok [⟨[.int (-1), .long 1, .null], 3⟩, ⟨[], 0⟩,
        ⟨[.float ⟨0xFFA00001⟩, .double ⟨0x8000000000000000⟩, .text "né"], 7⟩] := by
  obtain ⟨image, himage⟩ : ∃ image, encode [⟨[.int (-1), .long 1, .null], 3⟩, ⟨[], 0⟩,
      ⟨[.float ⟨0xFFA00001⟩, .double ⟨0x8000000000000000⟩, .text "né"], 7⟩] = .ok image :=
    ⟨_, rfl⟩
  rw [himage]
  exact decode_encode_rows himage

/-! ## Which pages have an image -/

/-- Every count and every position of the page fits the field it is written to. -/
def Fits (rows : List Row) : Prop :=
  rows.length < limit32 ∧ ∀ r ∈ rows, r.position < limit32 ∧ r.entries.length < limit16 ∧
    ∀ s, Entry.text s ∈ r.entries → (Utf8.encode s).length < limit32

theorem exists_counted_iff (field : ImageField) (n : Nat) :
    (∃ bytes, counted field n = .ok bytes) ↔ n < limit32 := by
  simp [counted_eq_ok]

/-- A sequence of things has bytes if each of them has. -/
theorem exists_encodeAll_iff {α : Type} (encodeOne : α → Result (List UInt8))
    (encodeAll : List α → Result (List UInt8)) (hnil : encodeAll [] = .ok [])
    (hcons : ∀ a rest, encodeAll (a :: rest) = do
      let bytes ← encodeOne a
      let more ← encodeAll rest
      .ok (bytes ++ more)) (xs : List α) :
    (∃ bytes, encodeAll xs = .ok bytes) ↔ ∀ a ∈ xs, ∃ bytes, encodeOne a = .ok bytes := by
  induction xs with
  | nil => simp [hnil]
  | cons a rest ih =>
    rw [List.forall_mem_cons, ← ih, hcons]
    constructor
    · rintro ⟨bytes, h⟩
      obtain ⟨first, hfirst, h⟩ := Result.bind_eq_ok.1 h
      obtain ⟨more, hmore, -⟩ := Result.bind_eq_ok.1 h
      exact ⟨⟨first, hfirst⟩, more, hmore⟩
    · rintro ⟨⟨first, hfirst⟩, more, hmore⟩
      exact ⟨first ++ more, by simp [hfirst, hmore]⟩

theorem exists_encodeEntry_iff {e : Entry} :
    (∃ bytes, encodeEntry e = .ok bytes) ↔
      ∀ s, e = .text s → (Utf8.encode s).length < limit32 := by
  cases e with
  | text s =>
    simp only [encodeEntry, Result.bind_eq_ok, Entry.text.injEq, forall_eq',
      ← exists_counted_iff .textLength]
    constructor
    · rintro ⟨_, bytes, h, -⟩
      exact ⟨bytes, h⟩
    · rintro ⟨bytes, h⟩
      exact ⟨_, bytes, h, rfl⟩
  | _ => simp [encodeEntry]

theorem exists_encodeRow_iff {r : Row} :
    (∃ bytes, encodeRow r = .ok bytes) ↔ r.position < limit32 ∧ r.entries.length < limit16 ∧
      ∀ s, Entry.text s ∈ r.entries → (Utf8.encode s).length < limit32 := by
  have hentries : (∃ bytes, encodeEntries r.entries = .ok bytes) ↔
      ∀ s, Entry.text s ∈ r.entries → (Utf8.encode s).length < limit32 := by
    rw [exists_encodeAll_iff encodeEntry encodeEntries rfl (fun _ _ => rfl)]
    simp only [exists_encodeEntry_iff]
    exact ⟨fun h s hs => h _ hs s rfl, fun h e he s hes => h s (hes ▸ he)⟩
  rw [← hentries, ← exists_counted_iff .position, ← Nat.not_le]
  constructor
  · rintro ⟨bytes, h⟩
    unfold encodeRow at h
    split at h
    · cases h
    rename_i hwidth
    obtain ⟨front, hfront, h⟩ := Result.bind_eq_ok.1 h
    obtain ⟨body, hbody, -⟩ := Result.bind_eq_ok.1 h
    exact ⟨⟨front, hfront⟩, hwidth, body, hbody⟩
  · rintro ⟨⟨front, hfront⟩, hwidth, body, hbody⟩
    exact ⟨front ++ littleEndian 2 r.entries.length ++ body, by
      simp [encodeRow, hwidth, hfront, hbody]⟩

/-- A page has an image exactly if its counts and positions fit; nothing else about it matters. -/
theorem exists_encode_iff {rows : List Row} : (∃ image, encode rows = .ok image) ↔ Fits rows := by
  have hrows := exists_encodeAll_iff encodeRow encodeRows rfl (fun _ _ => rfl) rows
  simp only [exists_encodeRow_iff] at hrows
  rw [Fits, ← hrows, ← exists_counted_iff .rowCount]
  constructor
  · rintro ⟨image, h⟩
    obtain ⟨count, hcount, h⟩ := Result.bind_eq_ok.1 h
    obtain ⟨body, hbody, -⟩ := Result.bind_eq_ok.1 h
    exact ⟨⟨count, hcount⟩, body, hbody⟩
  · rintro ⟨⟨count, hcount⟩, body, hbody⟩
    exact ⟨magic ++ littleEndian 2 version ++ count ++ body, by simp [encode, hcount, hbody]⟩

end PageImage

end PageDb

import PageDb.Proofs.PageImage

/-!
Page images have one form: what `PageImage.decode` reads, `PageImage.encode` writes back byte for
byte.

A reader is described by `Restores r encode`: the bytes that it takes are those that `encode` writes
of its answer, and what follows is left.
-/

namespace PageDb

namespace PageImage

/-! ## Numbers -/

theorem ofLittleEndian_lt (bytes : List UInt8) :
    ofLittleEndian bytes < Nat.pow 256 bytes.length := by
  induction bytes with
  | nil => simp [ofLittleEndian]
  | cons b rest ih =>
    have hb : b.toNat < 256 := b.toNat_lt
    have hpow : Nat.pow 256 (b :: rest).length = 256 * Nat.pow 256 rest.length := by
      simp [Nat.pow_succ, Nat.mul_comm]
    rw [ofLittleEndian, hpow]
    omega

/-- Bytes are the little-endian form of the number they stand for. -/
theorem littleEndian_ofLittleEndian (bytes : List UInt8) :
    littleEndian bytes.length (ofLittleEndian bytes) = bytes := by
  induction bytes with
  | nil => rfl
  | cons b rest ih =>
    have hb : b.toNat < 256 := b.toNat_lt
    have hlow : (b.toNat + 256 * ofLittleEndian rest) % 256 = b.toNat := by omega
    have hhigh : (b.toNat + 256 * ofLittleEndian rest) / 256 = ofLittleEndian rest := by omega
    rw [List.length_cons, ofLittleEndian, littleEndian, hlow, hhigh, ih, UInt8.ofNat_toNat]

/-- Bytes of a header are the number that is read from them. -/
theorem littleEndian_part {bytes : List UInt8} {width : Nat} (h : bytes.length = width) :
    ofLittleEndian bytes < Nat.pow 256 width ∧ littleEndian width (ofLittleEndian bytes) = bytes :=
  h ▸ ⟨ofLittleEndian_lt bytes, littleEndian_ofLittleEndian bytes⟩

theorem counted_of_lt {field : ImageField} {n : Nat} (h : n < limit32) :
    counted field n = .ok (littleEndian 4 n) := counted_eq_ok.2 ⟨h, rfl⟩

/-! ## Readers -/

section Readers

variable {α β : Type} {bytes rest : List UInt8}

/-- The bytes that the reader takes are what `encode` writes of its answer. -/
def Restores (r : Reader α) (encode : α → Result (List UInt8)) : Prop :=
  ∀ bytes a rest, r.run bytes = .ok (a, rest) →
    ∃ taken, encode a = .ok taken ∧ bytes = taken ++ rest

/-- A reader that succeeds has succeeded in both of its steps. -/
theorem run_bind_eq_ok {r : Reader α} {f : α → Reader β} {b : β}
    (h : (r >>= f).run bytes = .ok (b, rest)) :
    ∃ a middle, r.run bytes = .ok (a, middle) ∧ (f a).run middle = .ok (b, rest) := by
  rw [StateT.run_bind] at h
  obtain ⟨⟨a, middle⟩, hfirst, hsecond⟩ := Result.bind_eq_ok.1 h
  exact ⟨a, middle, hfirst, hsecond⟩

theorem run_pure_eq_ok {a b : α} (h : (pure a : Reader α).run bytes = .ok (b, rest)) :
    a = b ∧ bytes = rest := by
  cases h
  exact ⟨rfl, rfl⟩

theorem take_eq_ok {field : ImageField} {count : Nat} {taken : List UInt8}
    (h : (take field count).run bytes = .ok (taken, rest)) :
    taken.length = count ∧ bytes = taken ++ rest := by
  simp only [take, StateT.run] at h
  split at h
  · cases h
  · rename_i hlong
    cases h
    refine ⟨?_, (List.take_append_drop count bytes).symm⟩
    rw [List.length_take] at hlong ⊢
    omega

theorem takeNumber_eq_ok {field : ImageField} {width n : Nat}
    (h : (takeNumber field width).run bytes = .ok (n, rest)) :
    n < Nat.pow 256 width ∧ bytes = littleEndian width n ++ rest := by
  obtain ⟨taken, middle, htake, h⟩ := run_bind_eq_ok h
  obtain ⟨rfl, rfl⟩ := run_pure_eq_ok h
  obtain ⟨rfl, rfl⟩ := take_eq_ok htake
  exact ⟨ofLittleEndian_lt taken, by rw [littleEndian_ofLittleEndian]⟩

end Readers

/-! ## Entries -/

/-- A value of fixed width is written as its tag and the number that was read. -/
theorem encodeEntry_of_number {field : ImageField} {width : Nat} {f : Nat → Entry} (tag : Nat)
    {bytes rest : List UInt8} {e : Entry}
    (hvalue : ∀ n, n < Nat.pow 256 width →
      encodeEntry (f n) = .ok (UInt8.ofNat tag :: littleEndian width n))
    (h : (do return f (← takeNumber field width) : Reader Entry).run bytes = .ok (e, rest)) :
    ∃ taken, encodeEntry e = .ok (UInt8.ofNat tag :: taken) ∧ bytes = taken ++ rest := by
  obtain ⟨n, middle, hnumber, hpure⟩ := run_bind_eq_ok h
  obtain ⟨rfl, rfl⟩ := run_pure_eq_ok hpure
  obtain ⟨hlt, hbytes⟩ := takeNumber_eq_ok hnumber
  exact ⟨_, hvalue n hlt, hbytes⟩

/-- A text is written as its length and its bytes, since bytes that are read as text are its own. -/
theorem encodeEntry_of_text {bytes rest : List UInt8} {e : Entry}
    (h : (takeValue 5).run bytes = .ok (e, rest)) :
    ∃ taken, encodeEntry e = .ok (5 :: taken) ∧ bytes = taken ++ rest := by
  obtain ⟨length, middle, hlength, htext⟩ := run_bind_eq_ok h
  obtain ⟨payload, middle', hpayload, hdecode⟩ := run_bind_eq_ok htext
  obtain ⟨hlt, hbytes⟩ := takeNumber_eq_ok hlength
  obtain ⟨hsize, hmiddle⟩ := take_eq_ok hpayload
  cases hs : Utf8.decode payload with
  | error fault =>
    rw [hs] at hdecode
    cases hdecode
  | ok s =>
    rw [hs] at hdecode
    obtain ⟨rfl, rfl⟩ := run_pure_eq_ok hdecode
    have hown : payload = Utf8.encode s := Utf8.eq_encode_of_decode hs
    rw [hown] at hsize hmiddle
    subst hsize
    refine ⟨littleEndian 4 (Utf8.encode s).length ++ Utf8.encode s, ?_, ?_⟩
    · simp [encodeEntry, counted_of_lt hlt]
    · rw [hbytes, hmiddle, List.append_assoc]

/-- An entry that is read is written with the tag that it was read with. -/
theorem encodeEntry_of_takeValue {tag : Nat} {bytes rest : List UInt8} {e : Entry}
    (h : (takeValue tag).run bytes = .ok (e, rest)) :
    ∃ taken, encodeEntry e = .ok (UInt8.ofNat tag :: taken) ∧ bytes = taken ++ rest := by
  -- the six tags of the format, and any other number
  match tag with
  | 0 =>
    obtain ⟨rfl, rfl⟩ := run_pure_eq_ok h
    exact ⟨[], rfl, rfl⟩
  | 1 =>
    refine encodeEntry_of_number 1 (fun n hn => ?_) h
    have hbits : (UInt32.ofNat n).toInt32.toUInt32.toNat = n := UInt32.toNat_ofNat_of_lt' hn
    rw [encodeEntry, hbits]
    rfl
  | 2 =>
    refine encodeEntry_of_number 2 (fun n hn => ?_) h
    have hbits : (UInt64.ofNat n).toInt64.toUInt64.toNat = n := UInt64.toNat_ofNat_of_lt' hn
    rw [encodeEntry, hbits]
    rfl
  | 3 =>
    refine encodeEntry_of_number 3 (fun n hn => ?_) h
    have hbits : (⟨BitVec.ofNat _ n⟩ : Binary .single).toNat = n := Nat.mod_eq_of_lt hn
    rw [encodeEntry, hbits]
    rfl
  | 4 =>
    refine encodeEntry_of_number 4 (fun n hn => ?_) h
    have hbits : (⟨BitVec.ofNat _ n⟩ : Binary .double).toNat = n := Nat.mod_eq_of_lt hn
    rw [encodeEntry, hbits]
    rfl
  | 5 => exact encodeEntry_of_text h
  | tag + 6 => cases h

theorem restores_takeEntry : Restores takeEntry encodeEntry := by
  intro bytes e rest h
  obtain ⟨tag, middle, htag, hvalue⟩ := run_bind_eq_ok h
  obtain ⟨hlt, hbytes⟩ := takeNumber_eq_ok htag
  obtain ⟨taken, hencode, hmiddle⟩ := encodeEntry_of_takeValue hvalue
  have hone : littleEndian 1 tag = [UInt8.ofNat tag] := by
    simp [littleEndian, Nat.mod_eq_of_lt (show tag < 256 from hlt)]
  refine ⟨_, hencode, ?_⟩
  rw [hbytes, hone, hmiddle]
  rfl

/-! ## Rows and images -/

/-- A sequence of things is restored one by one, and there are as many as were asked for. -/
theorem restores_takeMany {α : Type} {one : Reader α} {encodeOne : α → Result (List UInt8)}
    (encodeAll : List α → Result (List UInt8)) (hnil : encodeAll [] = .ok [])
    (hcons : ∀ a rest, encodeAll (a :: rest) = do
      let bytes ← encodeOne a
      let more ← encodeAll rest
      .ok (bytes ++ more))
    (hone : Restores one encodeOne) (count : Nat) {bytes rest : List UInt8} {xs : List α}
    (h : (takeMany one count).run bytes = .ok (xs, rest)) :
    xs.length = count ∧ ∃ taken, encodeAll xs = .ok taken ∧ bytes = taken ++ rest := by
  induction count generalizing bytes xs with
  | zero =>
    obtain ⟨rfl, rfl⟩ := run_pure_eq_ok h
    exact ⟨rfl, [], hnil, rfl⟩
  | succ count ih =>
    obtain ⟨first, middle, hfirst, h⟩ := run_bind_eq_ok h
    obtain ⟨more, middle', hmore, h⟩ := run_bind_eq_ok h
    obtain ⟨rfl, rfl⟩ := run_pure_eq_ok h
    obtain ⟨front, hfront, rfl⟩ := hone _ _ _ hfirst
    obtain ⟨rfl, back, hback, rfl⟩ := ih hmore
    exact ⟨rfl, front ++ back, by simp [hcons, hfront, hback], by simp⟩

theorem restores_takeRow : Restores takeRow encodeRow := by
  intro bytes r rest h
  obtain ⟨header, middle, hheader, hrow⟩ := run_bind_eq_ok h
  obtain ⟨entries, middle', hentries, hpure⟩ := run_bind_eq_ok hrow
  obtain ⟨rfl, rfl⟩ := run_pure_eq_ok hpure
  obtain ⟨hlength, hbytes⟩ := take_eq_ok hheader
  obtain ⟨hcount, body, hbody, hmiddle⟩ :=
    restores_takeMany encodeEntries rfl (fun _ _ => rfl) restores_takeEntry _ hentries
  have hfour : (header.take 4).length = 4 := by simp [hlength]
  have htwo : (header.drop 4).length = 2 := by simp [hlength]
  obtain ⟨hposition, hfront⟩ := littleEndian_part hfour
  obtain ⟨hwidth, hback⟩ := littleEndian_part htwo
  have hwritten : encodeRow ⟨entries, ofLittleEndian (header.take 4)⟩ =
      .ok (header.take 4 ++ header.drop 4 ++ body) := by
    have hnarrow : ¬ limit16 ≤ ofLittleEndian (header.drop 4) := Nat.not_le.2 hwidth
    simp only [encodeRow, hcount, if_neg hnarrow]
    rw [counted_of_lt hposition, hbody, hfront, hback]
    rfl
  refine ⟨_, hwritten, ?_⟩
  rw [hbytes, hmiddle, List.take_append_drop, List.append_assoc]

/-- A reader that goes on has passed its check. -/
theorem run_check_eq_ok {α : Type} {p : Prop} [Decidable p] {failure : Error}
    {next : PUnit → Reader α} {bytes rest : List UInt8} {a : α}
    (h : (if p then throw failure >>= next else next ⟨⟩).run bytes = .ok (a, rest)) :
    ¬ p ∧ (next ⟨⟩).run bytes = .ok (a, rest) := by
  by_cases hp : p
  · rw [if_pos hp] at h
    cases h
  · rw [if_neg hp] at h
    exact ⟨hp, h⟩

theorem restores_takeImage : Restores takeImage encode := by
  intro bytes rows rest h
  obtain ⟨header, middle, hheader, hchecked⟩ := run_bind_eq_ok h
  obtain ⟨hlength, hbytes⟩ := take_eq_ok hheader
  obtain ⟨hmagic, hversioned⟩ := run_check_eq_ok hchecked
  obtain ⟨hversion, hrows⟩ := run_check_eq_ok hversioned
  obtain ⟨hcount, body, hbody, hmiddle⟩ :=
    restores_takeMany encodeRows rfl (fun _ _ => rfl) restores_takeRow _ hrows
  have htwo : ((header.drop 4).take 2).length = 2 := by simp [hlength]
  have hfour : (header.drop 6).length = 4 := by simp [hlength]
  obtain ⟨-, hsecond⟩ := littleEndian_part htwo
  obtain ⟨hlt, hthird⟩ := littleEndian_part hfour
  have hmagic' : header.take 4 = magic := Decidable.of_not_not hmagic
  have hversion' : ofLittleEndian ((header.drop 4).take 2) = version :=
    Decidable.of_not_not hversion
  rw [hversion'] at hsecond
  have hparts : magic ++ littleEndian 2 version ++ header.drop 6 = header := by
    have hlast : header.drop 6 = (header.drop 4).drop 2 := by rw [List.drop_drop]
    rw [← hmagic', hsecond, List.append_assoc, hlast, List.take_append_drop,
      List.take_append_drop]
  have hwritten : encode rows = .ok (header ++ body) := by
    rw [encode, hcount, counted_of_lt hlt, hbody, hthird]
    exact congrArg (fun front => Except.ok (front ++ body)) hparts
  refine ⟨_, hwritten, ?_⟩
  rw [hbytes, hmiddle, List.append_assoc]

/-- An image that decodes is written back byte for byte from its rows, so no other bytes decode to
the same rows. -/
theorem encode_rows_of_decode {image : List UInt8} {rows : List Row} (h : decode image = .ok rows) :
    encode rows = .ok image ∧ ∀ other, decode other = .ok rows → other = image := by
  have hform {bytes : List UInt8} (hdecode : decode bytes = .ok rows) :
      encode rows = .ok bytes := by
    obtain ⟨⟨found, rest⟩, himage, hend⟩ := Result.bind_eq_ok.1 hdecode
    dsimp only at hend
    cases hempty : rest.isEmpty with
    | false => simp [hempty] at hend
    | true =>
      obtain rfl : found = rows := by simpa [hempty] using hend
      obtain ⟨taken, hencode, hbytes⟩ := restores_takeImage _ _ _ himage
      rw [List.isEmpty_iff.1 hempty, List.append_nil] at hbytes
      rw [hencode, hbytes]
  refine ⟨hform h, fun other hother => ?_⟩
  exact Except.ok.inj ((hform hother).symm.trans (hform h))

/-- A page of two rows, the second without entries, as it is in its file. -/
def twoRows : List UInt8 :=
  [0x53, 0x50, 0x47, 0x31, 1, 0, 2, 0, 0, 0,
    3, 0, 0, 0, 3, 0, 1, 255, 255, 255, 255, 5, 3, 0, 0, 0, 110, 195, 169, 0,
    7, 0, 0, 0, 0, 0]

theorem encode_twoRows :
    decode twoRows = .ok [⟨[.int (-1), .text "né", .null], 3⟩, ⟨[], 7⟩] ∧
      encode [⟨[.int (-1), .text "né", .null], 3⟩, ⟨[], 7⟩] = .ok twoRows ∧
      ∀ other, decode other = .ok [⟨[.int (-1), .text "né", .null], 3⟩, ⟨[], 7⟩] →
        other = twoRows := by
  have hdecode : decode twoRows = .ok [⟨[.int (-1), .text "né", .null], 3⟩, ⟨[], 7⟩] := by rfl
  exact ⟨hdecode, encode_rows_of_decode hdecode⟩

end PageImage

end PageDb

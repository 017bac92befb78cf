/-!
UTF-8 as lists of bytes.

`Utf8.encode` and `Utf8.decode` pass between text and its bytes: `decode` gives back the text
exactly when the bytes are the encoding of one, and otherwise says where and how they fail.
-/

namespace PageDb

namespace Utf8

/-- Why a list of bytes is not UTF-8. -/
inductive Fault where
  /-- `length` bytes from `index` on start a sequence that the next byte cannot continue. -/
  | invalid (length index : Nat)
  /-- The bytes end inside the sequence that starts at `index`. -/
  | incomplete (index : Nat)
deriving DecidableEq, Repr

/-- The wording of a fault. -/
def Fault.message : Fault → String
  | .invalid length index =>
    "invalid utf-8 sequence of " ++ toString length ++ " bytes from index " ++ toString index
  | .incomplete index => "incomplete utf-8 byte sequence from index " ++ toString index

/-- The bytes of a text. -/
def encode (s : String) : List UInt8 := s.toByteArray.data.toList

/-- How the bytes at hand begin. -/
inductive Start where
  | sequence (length : Nat)
  | broken (length : Nat)
  | cut
deriving DecidableEq, Repr

/-- How many bytes follow a lead byte, and the range of the first of them; none for a byte that
cannot lead.  The narrow ranges keep out overlong forms, surrogates and values past the last
code point. -/
def following? (lead : UInt8) : Option (Nat × UInt8 × UInt8) :=
  if lead < 0x80 then some (0, 0x80, 0xBF)
  else if lead < 0xC2 then none
  else if lead < 0xE0 then some (1, 0x80, 0xBF)
  else if lead = 0xE0 then some (2, 0xA0, 0xBF)
  else if lead = 0xED then some (2, 0x80, 0x9F)
  else if lead < 0xF0 then some (2, 0x80, 0xBF)
  else if lead = 0xF0 then some (3, 0x90, 0xBF)
  else if lead < 0xF4 then some (3, 0x80, 0xBF)
  else if lead = 0xF4 then some (3, 0x80, 0x8F)
  else none

/-- Checks that `needed` continuation bytes follow the `seen` bytes already taken; the first of
them has to lie between `low` and `high`. -/
def continued : (needed seen : Nat) → (low high : UInt8) → List UInt8 → Start
  | 0, seen, _, _, _ => .sequence seen
  | _ + 1, _, _, _, [] => .cut
  | needed + 1, seen, low, high, b :: rest =>
    if low ≤ b ∧ b ≤ high then continued needed (seen + 1) 0x80 0xBF rest else .broken seen

/-- Classifies the beginning of a list of bytes. -/
def start : List UInt8 → Start
  | [] => .cut
  | lead :: rest =>
    match following? lead with
    | none => .broken 1
    | some (needed, low, high) => continued needed 1 low high rest

/-- The first fault at or after `index`, where `bytes` begin; `fuel` bounds the sequences passed. -/
def firstFault : (fuel index : Nat) → List UInt8 → Fault
  | 0, index, _ => .incomplete index
  | fuel + 1, index, bytes =>
    match start bytes with
    | .sequence length => firstFault fuel (index + length) (bytes.drop length)
    | .broken length => .invalid length index
    | .cut => .incomplete index

/-- Reads bytes as text. -/
def decode (bytes : List UInt8) : Except Fault String :=
  match String.fromUTF8? ⟨bytes.toArray⟩ with
  | some s => .ok s
  | none => .error (firstFault bytes.length 0 bytes)

theorem decode_encode (s : String) : decode (encode s) = .ok s := by
  simp [decode, encode, String.fromUTF8?, s.isValidUTF8, String.fromUTF8]

theorem eq_encode_of_decode {bytes : List UInt8} {s : String} (h : decode bytes = .ok s) :
    bytes = encode s := by
  simp only [decode, String.fromUTF8?, String.fromUTF8] at h
  split at h
  · rename_i t ht
    split at ht <;> simp_all
    subst ht
    simp [encode]
  · simp at h

/-- Exactly the encodings of texts can be read, each as the text it encodes. -/
theorem decode_eq_ok_iff {bytes : List UInt8} {s : String} :
    decode bytes = .ok s ↔ bytes = encode s :=
  ⟨eq_encode_of_decode, fun h => h ▸ decode_encode s⟩

theorem length_encode (s : String) : (encode s).length = s.utf8ByteSize := by
  rw [← String.size_toByteArray]
  exact Array.length_toList

end Utf8

end PageDb

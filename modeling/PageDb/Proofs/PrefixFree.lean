import PageDb.Proofs.CanonicalImage

/-!
No page image is the beginning of another one.

A reader that finds what it needs does so without looking at what follows, and on a part of these bytes
it either gets as far or runs out of them: `Frugal`.  So a cut image is refused as cut, wherever the cut
falls, and an image with bytes after it is refused for these bytes.
-/

namespace PageDb

namespace PageImage

/-! ## Readers that run out of bytes -/

/-- On the front of bytes on which the reader answers, it gives the same answer and leaves what the
front has left, or it finds that bytes are missing. -/
def Frugal {α : Type} (r : Reader α) : Prop :=
  ∀ front back a rest, r.run (front ++ back) = .ok (a, rest) →
    (∃ left, r.run front = .ok (a, left) ∧ rest = left ++ back) ∨
      ∃ field, r.run front = .error (.corruptPage (.truncated field))

namespace Frugal

variable {α β : Type}

theorem pure (a : α) : Frugal (Pure.pure a) := by
  intro front back b rest h
  obtain ⟨rfl, rfl⟩ := run_pure_eq_ok h
  exact .inl ⟨front, rfl, rfl⟩

/-- A reader that never answers. -/
theorem throw (e : Error) : Frugal (MonadExcept.throw e : Reader α) := by
  intro front back a rest h
  cases h

theorem bind {r : Reader α} {f : α → Reader β} (hr : Frugal r) (hf : ∀ a, Frugal (f a)) :
    Frugal (r >>= f) := by
  intro front back b rest h
  obtain ⟨a, middle, hfirst, hsecond⟩ := run_bind_eq_ok h
  rcases hr front back a middle hfirst with ⟨left, hleft, rfl⟩ | ⟨field, herror⟩
  · -- the second reader starts where the first one stopped
    have hrun : (r >>= f).run front = (f a).run left := by
      rw [StateT.run_bind, hleft]
      rfl
    rw [hrun]
    exact hf a left back b rest hsecond
  · refine .inr ⟨field, ?_⟩
    rw [StateT.run_bind, herror]
    rfl

theorem map {r : Reader α} (hr : Frugal r) (f : α → β) : Frugal (do return f (← r)) :=
  hr.bind fun a => pure (f a)

/-- A check does not look at the bytes. -/
theorem check {p : Prop} [Decidable p] {e : Error} {next : PUnit → Reader α}
    (h : Frugal (next ⟨⟩)) :
    Frugal (if p then MonadExcept.throw e >>= next else next ⟨⟩) := by
  by_cases hp : p
  · rw [if_pos hp]
    intro front back a rest hrun
    cases hrun
  · rwa [if_neg hp]

/-- Reading several things one after the other. -/
theorem takeMany {one : Reader α} (hone : Frugal one) (count : Nat) :
    Frugal (PageImage.takeMany one count) := by
  induction count with
  | zero => exact pure []
  | succ count ih => exact hone.bind fun first => ih.map (first :: ·)

end Frugal

theorem frugal_take (field : ImageField) (count : Nat) : Frugal (take field count) := by
  intro front back taken rest h
  by_cases hshort : front.length < count
  · have hfew : (front.take count).length < count :=
      Nat.lt_of_le_of_lt (List.length_take_le' count front) hshort
    exact .inr ⟨field, if_pos hfew⟩
  · have hlong : count ≤ front.length := Nat.not_lt.1 hshort
    simp only [take, StateT.run, List.take_append_of_le_length hlong,
      List.drop_append_of_le_length hlong] at h ⊢
    left
    split at h
    · cases h
    · cases h
      rename_i henough
      exact ⟨front.drop count, if_neg henough, rfl⟩

theorem frugal_takeNumber (field : ImageField) (width : Nat) : Frugal (takeNumber field width) :=
  (frugal_take field width).map ofLittleEndian

/-! ## Entries, rows and images -/

theorem frugal_takeValue (tag : Nat) : Frugal (takeValue tag) := by
  -- the six tags of the format, and any other number
  match tag with
  | 0 => exact .pure _
  | 1 => exact (frugal_takeNumber .int 4).map _
  | 2 => exact (frugal_takeNumber .long 8).map _
  | 3 => exact (frugal_takeNumber .float 4).map _
  | 4 => exact (frugal_takeNumber .double 8).map _
  | 5 =>
    refine (frugal_takeNumber .textLength 4).bind fun length => ?_
    refine (frugal_take .text length).bind fun payload => ?_
    cases Utf8.decode payload with
    | ok s => exact .pure _
    | error fault => exact .throw _
  | tag + 6 => exact .throw _

theorem frugal_takeEntry : Frugal takeEntry :=
  (frugal_takeNumber .tag 1).bind frugal_takeValue

theorem frugal_takeRow : Frugal takeRow := by
  refine (frugal_take .rowHeader 6).bind fun header => ?_
  exact (frugal_takeEntry.takeMany _).map _

theorem frugal_takeImage : Frugal takeImage := by
  refine (frugal_take .header 10).bind fun header => ?_
  exact .check (.check (frugal_takeRow.takeMany _))

/-- An image that is cut anywhere is refused because bytes are missing, and an image with bytes after
it because there are so many too many. -/
theorem decode_of_cut {rows : List Row} {image : List UInt8} (h : encode rows = .ok image) :
    (∀ front, front <+: image → front ≠ image →
        ∃ field, decode front = .error (.corruptPage (.truncated field))) ∧
      ∀ more, more ≠ [] → decode (image ++ more) = .error (.corruptPage (.trailing more.length)) := by
  have hreads := reads_encode h
  constructor
  · rintro front ⟨back, rfl⟩ hne
    have hwhole : takeImage.run (front ++ back) = .ok (rows, []) := by
      have hrun := hreads []
      rwa [List.append_nil] at hrun
    rcases frugal_takeImage front back rows [] hwhole with ⟨left, -, hnil⟩ | ⟨field, herror⟩
    · -- an answer on the front would have left the missing bytes
      have hback : back = [] := (List.append_eq_nil_iff.1 hnil.symm).2
      rw [hback, List.append_nil] at hne
      exact absurd rfl hne
    · exact ⟨field, by rw [decode, herror]; rfl⟩
  · intro more hmore
    rw [decode, hreads more]
    simp [hmore]

/-- A page whose first row is there in full is refused for want of the second one, and a page that is
there in full for one byte after it. -/
theorem decode_of_cut_twoRows :
    encode [⟨[.int (-1), .text "né", .null], 3⟩, ⟨[], 7⟩] = .ok twoRows ∧
      (twoRows.take 30 <+: twoRows ∧ twoRows.take 30 ≠ twoRows ∧
        ∃ field, decode (twoRows.take 30) = .error (.corruptPage (.truncated field))) ∧
      decode (twoRows ++ [0]) = .error (.corruptPage (.trailing 1)) := by
  have hencode : encode [⟨[.int (-1), .text "né", .null], 3⟩, ⟨[], 7⟩] = .ok twoRows := by rfl
  obtain ⟨hcut, hlonger⟩ := decode_of_cut hencode
  have hne : twoRows.take 30 ≠ twoRows := by decide
  exact ⟨hencode, ⟨List.take_prefix _ _, hne, hcut _ (List.take_prefix _ _) hne⟩,
    hlonger [0] (by simp)⟩

end PageImage

end PageDb

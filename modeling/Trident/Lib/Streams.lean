import Trident.Lib.PyText

/-! # Formatted input

What `stream >> word` and `stream >> number` take from a stream of characters, and
the end-of-file and failure bits they leave.
-/

namespace Trident.Streams

structure Stream where
  rest : List Char
  eof : Bool
  fail : Bool

def Stream.opened (text : List Char) : Stream := ⟨text, false, false⟩

def isSpace (c : Char) : Bool :=
  c = ' ' ∨ c = '\t' ∨ c = '\n' ∨ c = '\x0b' ∨ c = '\x0c' ∨ c = '\r'

/-- A number as it is printed. -/
def decimal (n : Nat) : List Char := (Nat.repr n).toList

/-- The text without the whitespace it begins with goes to `read`. Nothing is read from
a stream that is not good, or when only whitespace is left. -/
def extract {α : Type} (read : List Char → α × Stream) (s : Stream) : Option α × Stream :=
  if s.eof || s.fail then (none, { s with fail := true })
  else
    match s.rest.dropWhile isSpace with
    | [] => (none, ⟨[], true, true⟩)
    | c :: rest =>
      let r := read (c :: rest)
      (some r.1, r.2)

/-- `stream >> word` -/
def readWord : Stream → Option (List Char) × Stream := extract fun text =>
  let rest := text.dropWhile fun c => !isSpace c
  (text.takeWhile fun c => !isSpace c, ⟨rest, rest.isEmpty, false⟩)

/-- `stream >> number`, without a sign, for a type whose greatest value is `limit`. -/
def readNumber (limit : Nat) : Stream → Option Nat × Stream := extract fun text =>
  let digits := text.takeWhile Char.isDigit
  let rest := text.dropWhile Char.isDigit
  let value := Nat.ofDigitChars 10 digits 0
  if digits = [] then (0, ⟨rest, rest.isEmpty, true⟩)
  else if value ≤ limit then (value, ⟨rest, rest.isEmpty, false⟩)
  else (limit, ⟨rest, rest.isEmpty, true⟩)

section Lemmas

variable {spaces word rest : List Char} {c : Char}

theorem dropWhile_append {p : Char → Bool} (hAll : ∀ d ∈ spaces, p d = true) (hc : p c = false) :
    (spaces ++ c :: rest).dropWhile p = c :: rest := by
  rw [List.dropWhile_append_of_pos hAll, List.dropWhile_cons_of_neg (by simp [hc])]

theorem takeWhile_append {p : Char → Bool} (hAll : ∀ d ∈ word, p d = true) (hc : p c = false) :
    (word ++ c :: rest).takeWhile p = word := by
  rw [List.takeWhile_append_of_pos hAll, List.takeWhile_cons_of_neg (by simp [hc]), List.append_nil]

theorem extract_word {α : Type} (read : List Char → α × Stream)
    (hSpaces : ∀ d ∈ spaces, isSpace d = true) (hWord : word ≠ [])
    (hSolid : ∀ d ∈ word, isSpace d = false) :
    extract read (.opened (spaces ++ (word ++ rest))) =
      (some (read (word ++ rest)).1, (read (word ++ rest)).2) := by
  cases word with
  | nil => exact absurd rfl hWord
  | cons d word =>
    have hDrop : (spaces ++ d :: (word ++ rest)).dropWhile isSpace = d :: (word ++ rest) :=
      dropWhile_append hSpaces (hSolid d List.mem_cons_self)
    simp only [extract, Stream.opened, List.cons_append, hDrop, Bool.or_self, Bool.false_eq_true,
      if_false]

theorem readWord_word (hSpaces : ∀ d ∈ spaces, isSpace d = true) (hWord : word ≠ [])
    (hSolid : ∀ d ∈ word, isSpace d = false) (hc : isSpace c = true) :
    readWord (.opened (spaces ++ (word ++ c :: rest))) = (some word, .opened (c :: rest)) := by
  have hWhile : ∀ d ∈ word, (!isSpace d) = true := fun d hd => by rw [hSolid d hd]; rfl
  have hStop : (!isSpace c) = false := by rw [hc]; rfl
  rw [readWord, extract_word _ hSpaces hWord hSolid, takeWhile_append hWhile hStop,
    dropWhile_append hWhile hStop]
  rfl

theorem extract_end {α : Type} (read : List Char → α × Stream)
    (hSpaces : ∀ d ∈ spaces, isSpace d = true) :
    extract read (.opened spaces) = (none, ⟨[], true, true⟩) := by
  have hDrop : spaces.dropWhile isSpace = [] := List.dropWhile_eq_nil_iff.mpr hSpaces
  simp only [extract, Stream.opened, hDrop, Bool.or_self, Bool.false_eq_true, if_false]

theorem extract_failed {α : Type} (read : List Char → α × Stream) {s : Stream} (hFail : s.fail = true) :
    extract read s = (none, s) := by
  obtain ⟨rest, eof, fail⟩ := s
  obtain rfl : fail = true := hFail
  simp only [extract, Bool.or_true, if_true]

theorem isSpace_of_isDigit (hc : c.isDigit = true) : isSpace c = false := by
  by_contra hSpace
  rw [Bool.not_eq_false, isSpace, decide_eq_true_eq] at hSpace
  rcases hSpace with rfl | rfl | rfl | rfl | rfl | rfl <;> exact absurd hc (by decide)

/-- A printed number is read back, unless the type cannot hold it. -/
theorem readNumber_decimal (limit n : Nat) (hSpaces : ∀ d ∈ spaces, isSpace d = true)
    (hc : isSpace c = true) :
    readNumber limit (.opened (spaces ++ (decimal n ++ c :: rest))) =
      (some (min n limit), ⟨c :: rest, false, decide (limit < n)⟩) := by
  have hDigits : ∀ d ∈ decimal n, d.isDigit = true := fun d => PyText.isDigit_of_mem_repr
  have hNonempty : decimal n ≠ [] := PyText.repr_ne_nil n
  have hStop : c.isDigit = false := by
    by_contra hDigit
    rw [isSpace_of_isDigit (Bool.not_eq_false _ ▸ hDigit)] at hc
    cases hc
  have hSolid : ∀ d ∈ decimal n, isSpace d = false := fun d hd => isSpace_of_isDigit (hDigits d hd)
  have hValue : Nat.ofDigitChars 10 (decimal n) 0 = n := by
    rw [decimal, Nat.toList_repr, Nat.ofDigitChars_ten_toDigits]
  rw [readNumber, extract_word _ hSpaces hNonempty hSolid, takeWhile_append hDigits hStop,
    dropWhile_append hDigits hStop]
  simp only [hValue, hNonempty, if_false]
  cases Nat.lt_or_ge limit n with
  | inl hOver => simp [hOver, Nat.not_le.mpr hOver, Nat.min_eq_right hOver.le]
  | inr hFits => simp [hFits, Nat.not_lt.mpr hFits]

theorem readNumber_fits {limit n : Nat} (hn : n ≤ limit) (hSpaces : ∀ d ∈ spaces, isSpace d = true)
    (hc : isSpace c = true) :
    readNumber limit (.opened (spaces ++ (decimal n ++ c :: rest))) = (some n, .opened (c :: rest)) := by
  rw [readNumber_decimal limit n hSpaces hc, Nat.min_eq_left hn, decide_eq_false (Nat.not_lt.mpr hn)]
  rfl

theorem readNumber_over {limit n : Nat} (hn : limit < n) (hSpaces : ∀ d ∈ spaces, isSpace d = true)
    (hc : isSpace c = true) :
    readNumber limit (.opened (spaces ++ (decimal n ++ c :: rest))) =
      (some limit, ⟨c :: rest, false, true⟩) := by
  rw [readNumber_decimal limit n hSpaces hc, Nat.min_eq_right hn.le, decide_eq_true hn]

end Lemmas

section Signed

/-- A sign, and what follows it. -/
def signOf : List Char → Bool × List Char
  | '-' :: text => (true, text)
  | '+' :: text => (false, text)
  | text => (false, text)

/-- `stream >> number`, for a type whose values go from `-(limit + 1)` to `limit`. -/
def readSigned (limit : Nat) : Stream → Option Int × Stream := extract fun text =>
  let digits := (signOf text).2.takeWhile Char.isDigit
  let rest := (signOf text).2.dropWhile Char.isDigit
  let value := Nat.ofDigitChars 10 digits 0
  if digits = [] then (0, ⟨rest, rest.isEmpty, true⟩)
  else if (signOf text).1 then
    if value ≤ limit + 1 then (-(value : Int), ⟨rest, rest.isEmpty, false⟩)
    else (-(limit + 1 : Int), ⟨rest, rest.isEmpty, true⟩)
  else if value ≤ limit then ((value : Int), ⟨rest, rest.isEmpty, false⟩)
  else ((limit : Int), ⟨rest, rest.isEmpty, true⟩)

theorem signOf_digit {c : Char} (hc : c.isDigit = true) (text : List Char) :
    signOf (c :: text) = (false, c :: text) := by
  rw [signOf.eq_def]
  split
  · rename_i hSign
    rw [(List.cons.inj hSign).1] at hc
    exact absurd hc (by decide)
  · rename_i hSign
    rw [(List.cons.inj hSign).1] at hc
    exact absurd hc (by decide)
  · rfl

theorem readSigned_decimal {limit n : Nat} (hn : n ≤ limit) {spaces rest : List Char} {c : Char}
    (hSpaces : ∀ d ∈ spaces, isSpace d = true) (hc : isSpace c = true) :
    readSigned limit (.opened (spaces ++ (decimal n ++ c :: rest))) = (some (n : Int), .opened (c :: rest)) := by
  have hDigits : ∀ d ∈ decimal n, d.isDigit = true := fun d => PyText.isDigit_of_mem_repr
  have hNonempty : decimal n ≠ [] := PyText.repr_ne_nil n
  have hStop : c.isDigit = false := by
    by_contra hDigit
    rw [isSpace_of_isDigit (Bool.not_eq_false _ ▸ hDigit)] at hc
    cases hc
  have hSolid : ∀ d ∈ decimal n, isSpace d = false := fun d hd => isSpace_of_isDigit (hDigits d hd)
  have hValue : Nat.ofDigitChars 10 (decimal n) 0 = n := by
    rw [decimal, Nat.toList_repr, Nat.ofDigitChars_ten_toDigits]
  have hSign : signOf (decimal n ++ c :: rest) = (false, decimal n ++ c :: rest) := by
    cases hText : decimal n with
    | nil => exact absurd hText hNonempty
    | cons d text =>
      rw [hText] at hDigits
      exact signOf_digit (hDigits d List.mem_cons_self) _
  rw [readSigned, extract_word _ hSpaces hNonempty hSolid]
  dsimp only
  rw [hSign, takeWhile_append hDigits hStop, dropWhile_append hDigits hStop, hValue, if_neg hNonempty,
    if_neg Bool.false_ne_true, if_pos hn]
  rfl

end Signed

end Trident.Streams

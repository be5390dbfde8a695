/-
VideoMatch.Cxx.Strings — the functions of the C library on strings.

Strings are lists of bytes. Locale-dependent functions behave as in the C
locale. `atoi` stops at the first NUL by itself, because a NUL is neither
white space nor a digit.
-/
import VideoMatch.Cxx.Words

namespace VideoMatch.Cxx

/-! ## Characters -/

def isSpace (b : UInt8) : Bool := b = 32 || (9 ≤ b && b ≤ 13)

def isDigit (b : UInt8) : Bool := 48 ≤ b && b ≤ 57

def toLower (b : UInt8) : UInt8 := if 65 ≤ b ∧ b ≤ 90 then b + 32 else b

/-- `strcasecmp(a, b) == 0`. -/
def caseEq (a b : Bytes) : Bool := a.map toLower = b.map toLower

/-! ## Numbers -/

/-- The value of a string of decimal digits. -/
def decimalValue (s : Bytes) : Nat := s.foldl (fun n d => 10 * n + (d.toNat - 48)) 0

/-- The sign of a number and what follows it. -/
def splitSign : Bytes → Bool × Bytes
  | 45 :: s => (true, s)
  | 43 :: s => (false, s)
  | s => (false, s)

/-- `strtol(s, NULL, 10)`: white space, a sign, digits; the value is kept in
the range of `long`. -/
def strtol (s : Bytes) : Int :=
  let (negative, s) := splitSign (s.dropWhile isSpace)
  let n := decimalValue (s.takeWhile isDigit)
  if negative then -(min n (2 ^ 63) : Nat) else (min n (2 ^ 63 - 1) : Nat)

/-- The conversion of a `long` to `int`. -/
def intOfLong (v : Int) : Int := toInt (v % 2 ^ 32).toNat

/-- `atoi`, which is `strtol` converted to `int`. -/
def atoi (s : Bytes) : Int := intOfLong (strtol s)

theorem intOfLong_emod (v : Int) : intOfLong v % 2 ^ 32 = v % 2 ^ 32 := by
  unfold intOfLong toInt
  split <;> omega

theorem splitSign_append {s : Bytes} (t : Bytes) (h : s ≠ []) :
    splitSign (s ++ t) = ((splitSign s).1, (splitSign s).2 ++ t) := by
  cases s with
  | nil => exact absurd rfl h
  | cons b s =>
      rw [List.cons_append]
      unfold splitSign
      split <;> simp_all

theorem splitSign_suffix (s : Bytes) : (splitSign s).2 <:+ s := by
  unfold splitSign
  split <;> simp

/-- A number that has been read to its end is not changed by what follows. -/
theorem strtol_append {s : Bytes} (t : Bytes) (h : strtol s ≠ 0)
    (hlast : ∀ b ∈ s.getLast?, isDigit b = false) : strtol (s ++ t) = strtol s := by
  have hrest : s.dropWhile isSpace ≠ [] := by
    intro hnil
    simp [strtol, hnil, splitSign, decimalValue] at h
  have hdrop : (s ++ t).dropWhile isSpace = s.dropWhile isSpace ++ t := by
    simp [List.dropWhile_append, hrest]
  have hsuffix : (splitSign (s.dropWhile isSpace)).2 <:+ s :=
    (splitSign_suffix _).trans (List.dropWhile_suffix _)
  have hdigits : ((splitSign (s.dropWhile isSpace)).2 ++ t).takeWhile isDigit
      = (splitSign (s.dropWhile isSpace)).2.takeWhile isDigit := by
    generalize hd : (splitSign (s.dropWhile isSpace)).2 = d at hsuffix
    rw [List.takeWhile_append]
    split
    · next hall =>
        exfalso
        have hself : d.takeWhile isDigit = d := (List.takeWhile_prefix isDigit).eq_of_length hall
        have hall : ∀ b ∈ d, isDigit b = true := List.takeWhile_eq_self_iff.mp hself
        cases hlen : d.getLast? with
        | none =>
            have hnil : d = [] := List.getLast?_eq_none_iff.mp hlen
            simp [strtol, hd, hnil, decimalValue] at h
        | some b =>
            have hmem := List.mem_of_getLast? hlen
            obtain ⟨pre, rfl⟩ := hsuffix
            have hb := hlast b (by simp [List.getLast?_append, hlen])
            simp [hall b hmem] at hb
    · rfl
  simp only [strtol, hdrop, splitSign_append t hrest, hdigits]

example : atoi (ascii "0042.jpg") = 42 := by decide

example : atoi (ascii " -7x") = -7 := by decide

end VideoMatch.Cxx

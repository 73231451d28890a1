/-
  Blank characters and trimming.

  A character is blank when it has the Unicode property White_Space: 25 characters, most of them
  outside ASCII. Trimming drops blanks from both ends of a text.
-/

namespace ReactiveScript.Text

/-- The characters with the property White_Space, as inclusive ranges of code points. -/
def blankRanges : List (Nat × Nat) :=
  [(0x9, 0xD), (0x20, 0x20), (0x85, 0x85), (0xA0, 0xA0), (0x1680, 0x1680), (0x2000, 0x200A),
   (0x2028, 0x2029), (0x202F, 0x202F), (0x205F, 0x205F), (0x3000, 0x3000)]

/-- Whether a code point lies in one of the ranges. -/
def inRanges (ranges : List (Nat × Nat)) (code : Nat) : Bool :=
  ranges.any fun range => range.1 ≤ code && code ≤ range.2

/-- A character with the property White_Space. -/
def isBlank (c : Char) : Bool := inRanges blankRanges c.toNat

/-- Drop the blanks at both ends. -/
def trim (cs : List Char) : List Char :=
  ((cs.dropWhile isBlank).reverse.dropWhile isBlank).reverse

theorem dropWhile_isBlank {cs : List Char} (h : ∀ c ∈ cs, isBlank c = false) :
    cs.dropWhile isBlank = cs := by
  cases cs with
  | nil => rfl
  | cons c cs => exact List.dropWhile_cons_of_neg (by simp [h c List.mem_cons_self])

/-- A text without blanks has nothing to trim. -/
theorem trim_of_not_isBlank {cs : List Char} (h : ∀ c ∈ cs, isBlank c = false) : trim cs = cs := by
  unfold trim
  rw [dropWhile_isBlank h, dropWhile_isBlank fun c hc => h c (List.mem_reverse.1 hc),
    List.reverse_reverse]

theorem not_isBlank_of_isDigit {c : Char} (h : c.isDigit = true) : isBlank c = false := by
  have hrange : 48 ≤ c.toNat ∧ c.toNat ≤ 57 := Char.isDigit_iff_toNat.1 h
  simp only [isBlank, inRanges, blankRanges, List.any_cons, List.any_nil, Bool.or_false,
    Bool.or_eq_false_iff, Bool.and_eq_false_imp, decide_eq_true_eq, decide_eq_false_iff_not]
  omega

end ReactiveScript.Text

namespace Terse.Text

/-- The code points with the property White_Space, as inclusive ranges. -/
def blankRanges : List (Nat × Nat) :=
  [(0x9, 0xD), (0x20, 0x20), (0x85, 0x85), (0xA0, 0xA0), (0x1680, 0x1680), (0x2000, 0x200A),
    (0x2028, 0x2029), (0x202F, 0x202F), (0x205F, 0x205F), (0x3000, 0x3000)]

def isBlank (c : Char) : Bool :=
  blankRanges.any fun range => range.1 ≤ c.toNat && c.toNat ≤ range.2

def trimBlanks (cs : List Char) : List Char :=
  ((cs.dropWhile isBlank).reverse.dropWhile isBlank).reverse

def trim (s : String) : String :=
  String.ofList (trimBlanks s.toList)

theorem not_isBlank_of_visible {c : Char} (low : 33 ≤ c.val) (high : c.val ≤ 126) :
    isBlank c = false := by
  have low : 33 ≤ c.toNat := UInt32.le_iff_toNat_le.mp low
  have high : c.toNat ≤ 126 := UInt32.le_iff_toNat_le.mp high
  simp only [isBlank, blankRanges, List.any_eq_false]
  simp
  omega

theorem exists_dropWhile_isBlank (cs : List Char) :
    ∃ blanks, cs = blanks ++ cs.dropWhile isBlank ∧ ∀ c ∈ blanks, isBlank c = true :=
  ⟨cs.takeWhile isBlank, List.takeWhile_append_dropWhile.symm, List.all_eq_true.mp List.all_takeWhile⟩

theorem exists_trimBlanks (cs : List Char) : ∃ before behind, cs = before ++ (trimBlanks cs ++ behind) ∧
    (∀ c ∈ before, isBlank c = true) ∧ ∀ c ∈ behind, isBlank c = true := by
  obtain ⟨before, front, blank⟩ := exists_dropWhile_isBlank cs
  obtain ⟨behind, back, blank'⟩ := exists_dropWhile_isBlank (cs.dropWhile isBlank).reverse
  refine ⟨before, behind.reverse, ?_, blank, fun c mem => blank' c (List.mem_reverse.mp mem)⟩
  rw [trimBlanks, ← List.reverse_append, ← back, List.reverse_reverse, ← front]

end Terse.Text

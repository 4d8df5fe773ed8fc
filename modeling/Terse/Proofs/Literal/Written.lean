import Mathlib.Data.List.Forall2
import Mathlib.Data.Rat.Lemmas
import Terse.Proofs.Lazy.Reading
import Terse.Proofs.Literal.Literals
import Terse.Proofs.Number.Numerals
import Terse.Proofs.Value.LazyFree
import Terse.Value.Display

/-! The written form of a value is read as that value. A fraction is written as a division and a
negative number with a sign, so what is read back is an expression of arithmetic, at most two levels
deeper than the lists around it. -/
namespace Terse

namespace Lexeme

def EndsNumeral (rest : List Char) : Prop :=
  ∀ c ∈ rest.head?, isNumeralChar c = false ∧ c ≠ '.'

variable {rest : List Char}

theorem endsNumeral_cons {c : Char} (other : isNumeralChar c = false) (point : c ≠ '.') :
    EndsNumeral (c :: rest) := by
  rintro _ ⟨⟩
  exact ⟨other, point⟩

theorem reads_digits {cs : List Char} (nonempty : cs ≠ []) (each : ∀ c ∈ cs, c.isDigit = true)
    (ends : EndsNumeral rest) : Reads cs (.number (String.ofList cs)) rest := by
  obtain ⟨c, cs, rfl⟩ := List.exists_cons_of_ne_nil nonempty
  have digits : ∀ d ∈ c :: cs, isNumeralChar d = true := by
    intro d mem
    simp [isNumeralChar, each d mem]
  have separators : (c :: cs).filter (· ≠ '_') = c :: cs := by
    refine List.filter_eq_self.mpr fun d mem => decide_eq_true ?_
    rintro rfl
    simpa using each _ mem
  obtain ⟨admitted, pointless⟩ := forall_isNumeralChar_iff.mp digits
  have spells := Spells.number ⟨⟨c, cs, rfl, startsNumeral_iff.mpr (.inl (each c (by simp)))⟩, admitted,
    Nat.le_succ_of_le (Nat.le_of_eq pointless)⟩
  rw [separators] at spells
  refine reads_of_spells spells fun d behind => ?_
  obtain ⟨other, point⟩ := ends d behind
  simp [GoesOn, other, point]

end Lexeme

theorem Tiles.mark {position : Position} {c : Char} {kind : TokenKind} {rest : List Char}
    {tokens : List Token} (mark : Lexeme.mark? c = some kind)
    (tiles : Tiles (position.after c) rest tokens) :
    ∃ token : Token, token.kind = kind ∧ Tiles position (c :: rest) (token :: tokens) :=
  ⟨_, rfl, @Tiles.token position [] [c] rest kind tokens (by simp) (Lexeme.reads_mark mark) tiles⟩

/-- Wherever these characters stand before something that ends them, they make up a phrase of this
value. -/
def Tells (phrase : Phrase) (levels : Nat) (cs : List Char) (v : Value) : Prop :=
  ∀ (position : Position) (rest : List Char) (tail : List Token), Lexeme.EndsNumeral rest →
    Tiles (position.afterAll cs) rest tail →
      ∃ own e, Tiles position (cs ++ rest) (own ++ tail) ∧
        Derives .arithmetic phrase levels own e ∧ e.evaluate = .ok v

namespace Tells

variable {levels : Nat} {cs : List Char} {v : Value}

theorem weaken {phrase weaker : Phrase} {more : Nat}
    (derives : ∀ {tokens e}, Derives .arithmetic phrase levels tokens e →
      Derives .arithmetic weaker more tokens e)
    (tells : Tells phrase levels cs v) : Tells weaker more cs v := by
  intro position rest tail ends tiles
  obtain ⟨own, e, tiled, derived, value⟩ := tells position rest tail ends tiles
  exact ⟨own, e, tiled, derives derived, value⟩

theorem natural (n : Nat) : Tells .atom (levels + 1) (natText n).toList (.number n) := by
  intro position rest tail ends tiles
  have reads := Lexeme.reads_digits (toList_natText_ne_nil n)
    (fun c mem => isDigit_of_mem_natText mem) ends
  have parses : Decimal.parse? (String.ofList (natText n).toList).toList = some (n : Rat) := by
    rw [String.toList_ofList, Decimal.parse?_natText]
  exact ⟨[_], _, @Tiles.token position [] _ _ _ _ (by simp) reads tiles, .number rfl parses, rfl⟩

theorem text {s : String} (plain : ∀ c ∈ s.toList, c ≠ '"' ∧ c ≠ '\\') :
    Tells .atom (levels + 1) ('"' :: (s.toList ++ ['"'])) (.text s) := by
  intro position rest tail ends tiles
  have reads : Lexeme.Reads ('"' :: (s.toList ++ ['"'])) (.text s) rest :=
    Lexeme.reads_text_iff.mpr ⟨'"', s.toList, .inl rfl, .of_plain plain, rfl⟩
  exact ⟨[_], _, @Tiles.token position [] _ _ _ _ (by simp) reads tiles, .text rfl, rfl⟩

theorem negated {n : Rat} (tells : Tells .unary levels cs (.number n)) :
    Tells .unary (levels + 1) ('-' :: cs) (.number (-n)) := by
  intro position rest tail ends tiles
  obtain ⟨own, e, tiled, derives, value⟩ := tells (position.after '-') rest tail ends tiles
  obtain ⟨minus, kind, tiled⟩ := tiled.mark rfl
  refine ⟨minus :: own, _, tiled, @Derives.signed _ _ _ .minus _ _ kind derives, ?_⟩
  rw [Expr.evaluate, value]
  rfl

theorem integer (z : Int) : Tells .unary (levels + 2) (intText z).toList (.number z) := by
  have magnitude (levels : Nat) :
      Tells .unary (levels + 1) (natText z.natAbs).toList (.number z.natAbs) :=
    (natural z.natAbs).weaken .unsigned
  rw [intText]
  split
  · rename_i negative
    have value : (z : Rat) = -(z.natAbs : Rat) := by
      rw [← Rat.intCast_natCast, ← Rat.intCast_neg, Int.ofNat_natAbs_of_nonpos (by omega), Int.neg_neg]
    rw [String.toList_append, value]
    exact (magnitude levels).negated
  · rename_i positive
    have value : (z : Rat) = (z.natAbs : Rat) := by
      rw [← Rat.intCast_natCast, Int.natAbs_of_nonneg (by omega)]
    rw [value]
    exact magnitude (levels + 1)

theorem quotient {z : Int} {d : Nat} (nonzero : d ≠ 0) :
    Tells .product (levels + 2) ((intText z).toList ++ '/' :: (natText d).toList)
      (.number (z / d)) := by
  intro position rest tail ends tiles
  rw [Position.afterAll_append] at tiles
  have divisor : Tells .unary (levels + 1) (natText d).toList (.number d) :=
    (natural d).weaken .unsigned
  -- From the end to the front: what stands before is read up to what is known to follow.
  obtain ⟨right, e, tiled, derives, value⟩ := divisor _ rest tail ends tiles
  obtain ⟨slash, kind, tiled⟩ := tiled.mark rfl
  have stop : Lexeme.EndsNumeral ('/' :: ((natText d).toList ++ rest)) :=
    Lexeme.endsNumeral_cons rfl (by decide)
  have dividend : Tells .unary (levels + 2) (intText z).toList (.number z) := integer z
  obtain ⟨left, e', tiled, derives', value'⟩ := dividend position _ _ stop tiled
  have product := @Derives.product .arithmetic (levels + 1) ⟨left, e'⟩
    [⟨slash, .div, ⟨right, e⟩⟩] derives' (by simp [kind, Operator.mark]) (by simpa using derives)
  refine ⟨_, _, ?_, product, ?_⟩
  · simpa [Step.tokens] using tiled
  · have nonzero : (d : Rat) ≠ 0 := fun zero => nonzero (by exact_mod_cast zero)
    rw [List.foldl_cons, List.foldl_nil, Step.apply, Expr.evaluate, value, value']
    simp [bind, Except.bind, Operator.onValues, Operator.onNumbers, nonzero, Except.map]

theorem number (q : Rat) : Tells .product (levels + 2) (ratText q).toList (.number q) := by
  rw [ratText]
  split
  · rename_i whole
    have tells : Tells .unary (levels + 2) (intText q.num).toList (.number q.num) := integer q.num
    rw [Rat.coe_int_num_of_den_eq_one whole] at tells
    exact tells.weaken .asProduct
  · have tells : Tells .product (levels + 2) _ (.number (q.num / q.den)) := quotient q.den_nz
    rw [Rat.num_div_den] at tells
    simpa [String.toList_append] using tells

theorem elements {texts : List (List Char)} {items : List Value}
    (each : List.Forall₂ (Tells .sum levels) texts items) (position : Position) {rest : List Char}
    {tail : List Token} (ends : Lexeme.EndsNumeral rest)
    (tiles : Tiles (position.afterAll ([',', ' '].intercalate texts)) rest tail) :
    ∃ own pieces, Tiles position ([',', ' '].intercalate texts ++ rest) (own ++ tail) ∧
      Separated pieces own ∧
      (∀ piece ∈ pieces, Derives .arithmetic .sum levels piece.tokens piece.expr) ∧
      Expr.evaluateAll (pieces.map Piece.expr) = .ok items := by
  induction each generalizing position with
  | nil => exact ⟨[], [], tiles, .none, by simp, rfl⟩
  | @cons text item texts items tells each ih =>
    cases each with
    | nil =>
      rw [List.intercalate_singleton] at tiles ⊢
      obtain ⟨own, e, tiled, derives, value⟩ := tells position rest tail ends tiles
      refine ⟨own, [⟨own, e⟩], tiled, .last ⟨own, e⟩, by simpa using derives, ?_⟩
      simp [Expr.evaluateAll, value, bind, Except.bind, pure, Except.pure]
    | @cons next item' texts items tells' each =>
      rw [List.intercalate_cons_cons, Position.afterAll_append, Position.afterAll_append] at tiles
      rw [List.intercalate_cons_cons]
      obtain ⟨own, pieces, tiled, separated, derives, values⟩ := ih _ tiles
      have blank : ∀ c ∈ [' '], Text.isBlank c = true := List.forall_mem_singleton.mpr rfl
      have gap : Tiles ((position.afterAll text).after ',')
          (' ' :: ([',', ' '].intercalate (next :: texts) ++ rest)) (own ++ tail) :=
        tiled.blanks_append blank
      obtain ⟨comma, kind, tiled⟩ := gap.mark rfl
      have stop : Lexeme.EndsNumeral
          (',' :: ' ' :: ([',', ' '].intercalate (next :: texts) ++ rest)) :=
        Lexeme.endsNumeral_cons rfl (by decide)
      obtain ⟨own', e, tiled, derives', value⟩ := tells position _ _ stop tiled
      refine ⟨_, ⟨own', e⟩ :: pieces, ?_, .comma kind separated, ?_, ?_⟩
      · simpa using tiled
      · simpa using ⟨derives', derives⟩
      · simp [Expr.evaluateAll, value, values, bind, Except.bind, pure, Except.pure]

theorem list {texts : List (List Char)} {items : List Value}
    (each : List.Forall₂ (Tells .sum levels) texts items) :
    Tells .atom (levels + 1) ('[' :: ([',', ' '].intercalate texts ++ [']'])) (.list items) := by
  intro position rest tail ends tiles
  have inside : Tiles (((position.after '[').afterAll ([',', ' '].intercalate texts)).after ']') rest
      tail := by
    simpa [Position.afterAll] using tiles
  obtain ⟨closing, kind, tiled⟩ := inside.mark rfl
  have stop : Lexeme.EndsNumeral (']' :: rest) := Lexeme.endsNumeral_cons rfl (by decide)
  obtain ⟨own, pieces, tiled, separated, derives, values⟩ := elements each _ stop tiled
  obtain ⟨opening, kind', tiled⟩ := tiled.mark rfl
  refine ⟨_, _, ?_, .list kind' kind separated derives, ?_⟩
  · simpa using tiled
  · rw [Expr.evaluate, values]
    rfl

theorem atom (tells : Tells .atom levels cs v) : Tells .sum levels cs v :=
  tells.weaken fun derives => derives.unsigned.asProduct.asSum

theorem readLiteral {source : String} (tells : Tells .sum nestingLimit source.toList v) :
    readLiteral .arithmetic source = .ok v := by
  have finish : Tiles (Position.start.afterAll source.toList) [] _ := .finish (by simp)
  obtain ⟨own, e, tiled, derives, value⟩ := tells .start [] _ (by simp [Lexeme.EndsNumeral]) finish
  rw [List.append_nil] at tiled
  refine readLiteral_ok.mpr ⟨e, readExpr_ok.mpr ⟨_, tiled, ?_⟩, value⟩
  rw [beforeEnd_append derives.kind_ne_eof rfl]
  exact derives

end Tells

namespace Value

/-- Numbers, texts with neither quote nor backslash, and lists of such values, each leaf inside at
most this number of lists. A list without elements is a leaf. -/
inductive Writable : (lists : Nat) → Value → Prop where
  | number {lists : Nat} (q : Rat) : Writable lists (.number q)
  | text {lists : Nat} {s : String} : (∀ c ∈ s.toList, c ≠ '"' ∧ c ≠ '\\') →
      Writable lists (.text s)
  | empty {lists : Nat} : Writable lists (.list [])
  | list {lists : Nat} {items : List Value} : (∀ item ∈ items, Writable lists item) →
      Writable (lists + 1) (.list items)

variable {lists : Nat} {v : Value}

theorem displayItems_eq (ofLazy : Handle → String) (items : List Value) :
    displayItems ofLazy items = items.map (displayWith ofLazy) := by
  induction items with
  | nil => rfl
  | cons item items ih => rw [displayItems, ih, List.map_cons]

theorem toList_display_list (ofLazy : Handle → String) (items : List Value) :
    (displayWith ofLazy (.list items)).toList =
      '[' :: ([',', ' '].intercalate (items.map fun item => (displayWith ofLazy item).toList) ++
        [']']) := by
  simp [displayWith, displayItems_eq, Function.comp_def]

theorem Writable.lazyFree (writable : v.Writable lists) : v.LazyFree := by
  induction writable with
  | number q => exact .number q
  | text => exact .text _
  | empty => exact .list (by simp)
  | list _ ih => exact .list ih

/-- The written form makes up the value, in two levels more than it has lists. -/
theorem Writable.tells (writable : v.Writable lists) (ofLazy : Handle → String) :
    Tells .sum (lists + 2) (displayWith ofLazy v).toList v := by
  induction writable with
  | number q => exact (Tells.number q).weaken .asSum
  | @text lists s plain =>
    have tells : Tells .atom (lists + 2) _ (.text s) := .text plain
    simpa [displayWith] using tells.atom
  | @empty lists =>
    have tells : Tells .atom (lists + 2) _ (.list []) := .list .nil
    rw [toList_display_list]
    exact tells.atom
  | @list lists items _ ih =>
    have each : List.Forall₂ (Tells .sum (lists + 2))
        (items.map fun item => (displayWith ofLazy item).toList) items :=
      List.forall₂_map_left_iff.mpr (List.forall₂_same.mpr ih)
    rw [toList_display_list]
    exact (Tells.list each).atom

/-- What a store shows of a value is a reading of its parts, of which it has only those of lazy
sequences to itself. -/
theorem exists_displayWith (store : Store) (v : Value) :
    ∃ ofLazy, store.display v = displayWith ofLazy v := by
  rw [Store.display]
  cases store.buffers.size with
  | zero => exact ⟨_, rfl⟩
  | succ depth => exact ⟨_, rfl⟩

end Value

open Machine in
/-- Reading the written form of a value gives that value back, and the two are equal in structure:
for numbers of any size and sign, texts without quotes and backslashes, and lists of these. -/
theorem readLiteral_display {σ : Type} {v : Value} (writable : v.Writable 254) (store : Store)
    (code : Code σ) (machine : Machine σ) :
    ∃ w, readLiteral .arithmetic (store.display v) = .ok w ∧
      Ends code (w.equals v) machine (.ok true) machine := by
  obtain ⟨ofLazy, display⟩ := Value.exists_displayWith store v
  refine ⟨v, ?_, ?_⟩
  · rw [display]
    exact (writable.tells ofLazy).readLiteral
  · have equals : Ends code (v.equals v) machine (.ok (v.same v)) machine :=
      writable.lazyFree.equals writable.lazyFree
    rwa [writable.lazyFree.same_iff.mpr rfl] at equals

def mixedList : Value :=
  .list [.number (-7 / 3), .list [.text "é,\n'", .list []], .number (-12)]

theorem readLiteral_display_mixed :
    mixedList.Writable 254 ∧ ∃ w, readLiteral .arithmetic (Store.empty.display mixedList) = .ok w ∧
      Machine.Ends idleCode (w.equals mixedList) threeIntegers (.ok true) threeIntegers := by
  have plain : ∀ c ∈ "é,\n'".toList, c ≠ '"' ∧ c ≠ '\\' := by
    have chars : "é,\n'".toList = ['é', ',', '\n', '\''] := rfl
    simp [chars]
  have inner : Value.Writable 253 (.list [.text "é,\n'", .list []]) :=
    .list (by simpa using ⟨.text plain, .empty⟩)
  have writable : mixedList.Writable 254 :=
    .list (by simpa using ⟨.number (-7 / 3), inner, .number (-12)⟩)
  exact ⟨writable, readLiteral_display writable _ _ _⟩

end Terse

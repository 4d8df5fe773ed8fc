import Terse.Proofs.Literal.Literals

/-! What the nesting limit bounds. Elements, operands of signs and right operands of operators cost a
level each, so their nesting is bounded. The left operand of an operator costs none: a literal is no
higher than the limit, but a chain of operators is as high as it is long. -/
namespace Terse

namespace Expr

variable {α : Type}

mutual

def height : Expr α → Nat
  | number _ _ | text _ _ | boolean _ _ => 1
  | list _ items => heightAll items + 1
  | signed _ _ operand => operand.height + 1
  | binary _ _ left right => max left.height right.height + 1

def heightAll : List (Expr α) → Nat
  | [] => 0
  | e :: es => max e.height (heightAll es)

end

mutual

/-- The height, with the left operand of an operator as deep as the operator. -/
def nesting : Expr α → Nat
  | number _ _ | text _ _ | boolean _ _ => 1
  | list _ items => nestingAll items + 1
  | signed _ _ operand => operand.nesting + 1
  | binary _ _ left right => max left.nesting (right.nesting + 1)

def nestingAll : List (Expr α) → Nat
  | [] => 0
  | e :: es => max e.nesting (nestingAll es)

end

@[simp] theorem nesting_withNote (note : α) (e : Expr α) : (e.withNote note).nesting = e.nesting := by
  cases e <;> rfl

theorem nestingAll_le {items : List (Expr α)} {n : Nat} (each : ∀ item ∈ items, item.nesting ≤ n) :
    nestingAll items ≤ n := by
  induction items with
  | nil => exact Nat.zero_le n
  | cons e es ih =>
    exact Nat.max_le.mpr ⟨each e (by simp), ih fun item mem => each item (by simp [mem])⟩

theorem heightAll_eq {items : List (Expr α)} (each : ∀ item ∈ items, item.height = item.nesting) :
    heightAll items = nestingAll items := by
  induction items with
  | nil => rfl
  | cons e es ih =>
    rw [heightAll, nestingAll, each e (by simp), ih fun item mem => each item (by simp [mem])]

theorem IsLiteral.height_eq {e : Expr α} (literal : e.IsLiteral) : e.height = e.nesting := by
  induction literal with
  | number | text | boolean | signed => rfl
  | list _ ih => rw [height, nesting, heightAll_eq ih]

end Expr

namespace Step

variable {steps : List Step} {e : Expr Span} {n : Nat}

theorem nesting_foldl_le (begins : e.nesting ≤ n)
    (each : ∀ step ∈ steps, step.right.expr.nesting + 1 ≤ n) : (steps.foldl apply e).nesting ≤ n := by
  induction steps generalizing e with
  | nil => exact begins
  | cons step steps ih =>
    refine ih ?_ fun other mem => each other (by simp [mem])
    exact Nat.max_le.mpr ⟨begins, each step (by simp)⟩

theorem height_foldl (begins : 0 < e.height) (each : ∀ step ∈ steps, step.right.expr.height = 1) :
    (steps.foldl apply e).height = e.height + steps.length := by
  induction steps generalizing e with
  | nil => rfl
  | cons step steps ih =>
    have longer : (step.apply e).height = e.height + 1 := by
      rw [apply, Expr.height, each step (by simp), Nat.max_eq_left begins]
    rw [List.foldl_cons, ih (by omega) fun other mem => each other (by simp [mem]), longer,
      List.length_cons]
    omega

end Step

theorem Derives.nesting_le {grammar : Grammar} {phrase : Phrase} {levels : Nat} {tokens : List Token}
    {e : Expr Span} (derives : Derives grammar phrase levels tokens e) : e.nesting ≤ levels := by
  induction derives with
  | number | text | trueWord | falseWord | unit => exact Nat.le_add_left 1 _
  | list _ _ _ _ ih => exact Nat.succ_le_succ (Expr.nestingAll_le (List.forall_mem_map.mpr ih))
  | group _ _ _ ih =>
    rw [Expr.nesting_withNote]
    exact Nat.le_succ_of_le ih
  | tuple _ _ _ _ _ _ ih ihs =>
    refine Nat.succ_le_succ (Expr.nestingAll_le ?_)
    exact List.forall_mem_cons.mpr ⟨ih, List.forall_mem_map.mpr ihs⟩
  | unsigned _ ih | literal _ ih => exact ih
  | signed _ _ ih => exact Nat.succ_le_succ ih
  | product _ _ _ ih ihs | sum _ _ _ ih ihs =>
    exact Step.nesting_foldl_le ih fun step mem => Nat.succ_le_succ (ihs step mem)
  | signedNumber => exact Nat.le_add_left 2 _

/-- No expression that is read nests deeper than the limit, and no literal is higher. -/
theorem nesting_bounded {grammar : Grammar} {source : String} {e : Expr Span}
    (read : readExpr grammar source = .ok e) :
    e.nesting ≤ nestingLimit ∧ (grammar = .literal → e.height ≤ nestingLimit) := by
  obtain ⟨tokens, _, derives⟩ := readExpr_ok.mp read
  refine ⟨derives.nesting_le, ?_⟩
  rintro rfl
  rw [(derives.isLiteral (Grammar.item_mem _)).height_eq]
  exact derives.nesting_le

theorem nesting_bounded_pair :
    ∃ e, readExpr .literal "[1, -2]" = .ok e ∧ e.nesting ≤ nestingLimit ∧ e.height ≤ nestingLimit := by
  have read : readExpr .literal "[1, -2]" =
      .ok (.list ⟨0, 7, 1, 1⟩ [.number ⟨1, 2, 1, 2⟩ 1,
        .signed ⟨4, 6, 1, 5⟩ .minus (.number ⟨5, 6, 1, 6⟩ 2)]) := by
    cbv
  obtain ⟨nesting, height⟩ := nesting_bounded read
  exact ⟨_, read, nesting, height rfl⟩

def moreOnes (n : Nat) : List Char :=
  (List.replicate n ['+', '1']).flatten

def sumOfOnes (n : Nat) : String :=
  String.ofList ('1' :: moreOnes n)

namespace Position

def one (position : Position) : Piece :=
  let span : Span := .between position (position.afterAll ['1'])
  ⟨[⟨.number "1", span⟩], .number span 1⟩

def plusOne (position : Position) : Step :=
  let mark := position.afterAll ['+']
  ⟨⟨.plus, .between position mark⟩, .add, mark.one⟩

variable {position : Position} {tokens : List Token}

theorem one_tiles {n : Nat} (tiles : Tiles (position.afterAll ['1']) (moreOnes n) tokens) :
    Tiles position ('1' :: moreOnes n) (position.one.tokens ++ tokens) := by
  have reads : Lexeme.Reads ['1'] (.number "1") (moreOnes n) := by
    refine ⟨'1', [], rfl, ?_⟩
    cases n <;> rfl
  exact @Tiles.token position [] _ _ _ _ (List.forall_mem_nil _) reads tiles

theorem plusOne_tiles {n : Nat}
    (tiles : Tiles ((position.afterAll ['+']).afterAll ['1']) (moreOnes n) tokens) :
    Tiles position (moreOnes (n + 1)) (position.plusOne.tokens ++ tokens) :=
  @Tiles.token position [] ['+'] _ _ _ (List.forall_mem_nil _) ⟨'+', [], rfl, rfl⟩ (one_tiles tiles)

theorem one_derives (position : Position) {levels : Nat} :
    Derives .arithmetic .product (levels + 1) position.one.tokens position.one.expr := by
  have number : Derives .arithmetic .atom (levels + 1) position.one.tokens position.one.expr :=
    .number rfl (by cbv)
  exact number.unsigned.asProduct

end Position

theorem moreOnes_tiles (n : Nat) (position : Position) :
    ∃ (tokens : List Token) (steps : List Step), Tiles position (moreOnes n) tokens ∧
      beforeEnd tokens = steps.flatMap Step.tokens ∧ steps.length = n ∧
        ∀ step ∈ steps, ∃ place : Position, step = place.plusOne := by
  induction n generalizing position with
  | zero => exact ⟨_, [], .finish (List.forall_mem_nil _), rfl, rfl, List.forall_mem_nil _⟩
  | succ n ih =>
    obtain ⟨tokens, steps, tiles, inner, length, each⟩ := ih ((position.afterAll ['+']).afterAll ['1'])
    refine ⟨_, position.plusOne :: steps, Position.plusOne_tiles tiles, ?_, by simp [length], ?_⟩
    · rw [List.flatMap_cons, ← inner]
      rfl
    · exact List.forall_mem_cons.mpr ⟨⟨position, rfl⟩, each⟩

theorem sumOfOnes_height (n : Nat) :
    ∃ e, readExpr .arithmetic (sumOfOnes n) = .ok e ∧ e.height = n + 1 := by
  obtain ⟨tokens, steps, tiles, inner, length, each⟩ := moreOnes_tiles n (Position.start.afterAll ['1'])
  have sum : Derives .arithmetic .sum nestingLimit
      (Position.start.one.tokens ++ steps.flatMap Step.tokens)
      (steps.foldl Step.apply Position.start.one.expr) := by
    refine .sum (Position.one_derives _) (fun step mem => ?_) fun step mem => ?_
    · obtain ⟨place, rfl⟩ := each step mem
      exact ⟨rfl, by simp [Position.plusOne]⟩
    · obtain ⟨place, rfl⟩ := each step mem
      exact Position.one_derives _
  refine ⟨_, readExpr_ok.mpr ⟨Position.start.one.tokens ++ tokens, ?_, inner ▸ sum⟩, ?_⟩
  · rw [sumOfOnes, String.toList_ofList]
    exact Position.one_tiles tiles
  · have high : (steps.foldl Step.apply Position.start.one.expr).height = 1 + steps.length := by
      refine Step.height_foldl Nat.one_pos fun step mem => ?_
      obtain ⟨place, rfl⟩ := each step mem
      rfl
    rw [high, length, Nat.add_comm]

theorem height_exceeds_limit :
    ¬ ∀ (grammar : Grammar) (source : String) (e : Expr Span),
      readExpr grammar source = .ok e → e.height ≤ nestingLimit := by
  intro bounded
  obtain ⟨e, read, height⟩ := sumOfOnes_height nestingLimit
  have := bounded .arithmetic (sumOfOnes nestingLimit) e read
  omega

end Terse

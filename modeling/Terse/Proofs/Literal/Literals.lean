import Terse.Input.Stack
import Terse.Proofs.Literal.Rereading

namespace Terse

namespace Expr

variable {α : Type} {e : Expr α}

/-- An expression without operators, and with signs on numbers only. -/
inductive IsLiteral : Expr α → Prop where
  | number {note : α} {q : Rat} : IsLiteral (.number note q)
  | text {note : α} {content : String} : IsLiteral (.text note content)
  | boolean {note : α} {b : Bool} : IsLiteral (.boolean note b)
  | list {note : α} {items : List (Expr α)} : (∀ item ∈ items, IsLiteral item) →
      IsLiteral (.list note items)
  | signed {note inner : α} {sign : Sign} {q : Rat} : IsLiteral (.signed note sign (.number inner q))

theorem IsLiteral.withNote (literal : e.IsLiteral) (note : α) : (e.withNote note).IsLiteral := by
  cases literal with
  | number => exact .number
  | text => exact .text
  | boolean => exact .boolean
  | list each => exact .list each
  | signed => exact .signed

theorem evaluateAll_ok {items : List (Expr α)} (each : ∀ item ∈ items, ∃ v, item.evaluate = .ok v) :
    ∃ vs, evaluateAll items = .ok vs := by
  induction items with
  | nil => exact ⟨[], rfl⟩
  | cons item items ih =>
    obtain ⟨v, head⟩ := each item (by simp)
    obtain ⟨vs, others⟩ := ih fun item mem => each item (by simp [mem])
    exact ⟨v :: vs, by simp [evaluateAll, head, others, bind, Except.bind, pure, Except.pure]⟩

theorem IsLiteral.evaluates (literal : e.IsLiteral) : ∃ v, e.evaluate = .ok v := by
  induction literal with
  | @number _ q => exact ⟨.number q, rfl⟩
  | @text _ content => exact ⟨.text content, rfl⟩
  | @boolean _ b => exact ⟨.ofBool b, rfl⟩
  | list _ ih =>
    obtain ⟨vs, all⟩ := evaluateAll_ok ih
    exact ⟨.list vs, by rw [evaluate, all]; rfl⟩
  | @signed _ _ sign q =>
    cases sign
    · exact ⟨.number (-q), rfl⟩
    · exact ⟨.number q, rfl⟩

end Expr

def Phrase.inArithmetic : Phrase → Phrase
  | .literal => .sum
  | phrase => phrase

namespace Derives

variable {phrase : Phrase} {levels : Nat} {tokens : List Token} {e : Expr Span}

theorem arithmetic (derives : Derives .literal phrase levels tokens e) :
    Derives .arithmetic phrase.inArithmetic levels tokens e := by
  induction derives with
  | number kind parses => exact .number kind parses
  | text kind => exact .text kind
  | trueWord kind => exact .trueWord kind
  | falseWord kind => exact .falseWord kind
  | list opening closing separated _ ih => exact .list opening closing separated ih
  | unit opening closing => exact .unit opening closing
  | group opening closing _ ih => exact .group opening closing ih
  | tuple opening comma closing _ separated _ ih ihs =>
    exact .tuple opening comma closing ih separated ihs
  | unsigned _ ih => exact .unsigned ih
  | signed kind _ ih => exact .signed kind ih
  | product _ marks _ ih ihs => exact .product ih marks ihs
  | sum _ marks _ ih ihs => exact .sum ih marks ihs
  | literal _ ih => exact ih.unsigned.asProduct.asSum
  | @signedNumber levels mark token sign digits q kind number parses =>
    have operand : Derives .arithmetic .unary (levels + 1) [token] _ :=
      .unsigned (.number number parses)
    exact (operand.signed kind).asProduct.asSum

theorem isLiteral (derives : Derives .literal phrase levels tokens e)
    (mem : phrase ∈ Grammar.literal.phrases) : e.IsLiteral := by
  induction derives with
  | number => exact .number
  | text => exact .text
  | trueWord | falseWord => exact .boolean
  | unit => exact .list (by simp)
  | list _ _ _ _ ih =>
    exact .list (List.forall_mem_map.mpr fun piece found => ih piece found (Grammar.item_mem _))
  | group _ _ _ ih => exact (ih (Grammar.item_mem _)).withNote _
  | tuple _ _ _ _ _ _ ih ihs =>
    refine .list (List.forall_mem_cons.mpr ⟨ih (Grammar.item_mem _), ?_⟩)
    exact List.forall_mem_map.mpr fun piece found => ihs piece found (Grammar.item_mem _)
  | unsigned | signed | product | sum => simp [Grammar.phrases] at mem
  | literal _ ih => exact ih (by simp [Grammar.phrases])
  | signedNumber => exact .signed

end Derives

theorem readLiteral_ok {grammar : Grammar} {source : String} {v : Value} :
    readLiteral grammar source = .ok v ↔
      ∃ e, readExpr grammar source = .ok e ∧ e.evaluate = .ok v := by
  rw [readLiteral]
  cases readExpr grammar source with
  | error => simp
  | ok e => cases evaluated : e.evaluate <;> simp [evaluated]

theorem readExpr_arithmetic {source : String} {e : Expr Span} (read : readExpr .literal source = .ok e) :
    readExpr .arithmetic source = .ok e := by
  obtain ⟨tokens, tiles, derives⟩ := readExpr_ok.mp read
  exact readExpr_ok.mpr ⟨tokens, tiles, derives.arithmetic⟩

theorem readExpr_evaluates {source : String} {e : Expr Span} (read : readExpr .literal source = .ok e) :
    ∃ v, e.evaluate = .ok v := by
  obtain ⟨_, _, derives⟩ := readExpr_ok.mp read
  exact (derives.isLiteral (Grammar.item_mem _)).evaluates

theorem readLiteral_arithmetic {source : String} {v : Value}
    (read : readLiteral .literal source = .ok v) : readLiteral .arithmetic source = .ok v := by
  obtain ⟨e, read, evaluated⟩ := readLiteral_ok.mp read
  exact readLiteral_ok.mpr ⟨e, readExpr_arithmetic read, evaluated⟩

theorem readExpr_not_runtime (grammar : Grammar) (source : String) (failure : Failure) :
    readExpr grammar source ≠ .error (.runtime failure) := by
  rw [readExpr]
  split
  · simp
  · split <;> simp

theorem readLiteral_not_runtime (source : String) (failure : Failure) :
    readLiteral .literal source ≠ .error (.runtime failure) := by
  intro runtime
  rw [readLiteral] at runtime
  split at runtime
  · rename_i read
    obtain rfl := Except.error.inj runtime
    exact readExpr_not_runtime .literal source failure read
  · rename_i read
    obtain ⟨v, evaluated⟩ := readExpr_evaluates read
    simp [evaluated] at runtime

theorem evaluateLine_literalsOnly (line : String) :
    evaluateLine line true = .text line ∨ evaluateLine line true = evaluateLine line false := by
  cases read : readLiteral .literal (Text.trim line) with
  | error => simp [evaluateLine, read]
  | ok v => simp [evaluateLine, read, readLiteral_arithmetic read]

/-- Literals are read in arithmetic as what they are, and reading them fails in no evaluation; so a
line that only literals are admitted on is its own text or what it is without that restriction. -/
theorem literals_conservative (source : String) :
    (∀ v, readLiteral .literal source = .ok v →
      readExpr .arithmetic source = readExpr .literal source ∧
        readLiteral .arithmetic source = .ok v) ∧
    (∀ failure, readLiteral .literal source ≠ .error (.runtime failure)) ∧
    (evaluateLine source true = .text source ∨
      evaluateLine source true = evaluateLine source false) := by
  refine ⟨fun v read => ⟨?_, readLiteral_arithmetic read⟩, readLiteral_not_runtime source,
    evaluateLine_literalsOnly source⟩
  obtain ⟨e, read, _⟩ := readLiteral_ok.mp read
  rw [read, readExpr_arithmetic read]

theorem literals_conservative_tuple :
    readLiteral .literal "(-1, [True])" = .ok (.list [.number (-1), .list [.number 1]]) ∧
      readLiteral .arithmetic "(-1, [True])" = .ok (.list [.number (-1), .list [.number 1]]) := by
  have read : readLiteral .literal "(-1, [True])" =
      .ok (.list [.number (-1), .list [.number 1]]) := by
    cbv
  exact ⟨read, ((literals_conservative "(-1, [True])").1 _ read).2⟩

end Terse

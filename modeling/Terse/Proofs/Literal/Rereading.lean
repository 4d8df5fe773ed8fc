import Terse.Literal.Read
import Terse.Proofs.Literal.Parsing
import Terse.Proofs.Literal.Tiling

/-! Reading a source, and a part of it by itself. Neither tokens nor phrases depend on where they
stand, so the tokens of a part are those it has in the whole, and they make up the same expression. -/
namespace Terse

theorem readExpr_ok {grammar : Grammar} {source : String} {e : Expr Span} :
    readExpr grammar source = .ok e ↔ ∃ tokens, Tiles .start source.toList tokens ∧
      Derives grammar grammar.item nestingLimit (beforeEnd tokens) e := by
  constructor
  · intro read
    rw [readExpr] at read
    split at read
    · simp at read
    · rename_i tokens tokenized
      split at read
      · simp at read
      · rename_i parsed
        obtain rfl := Except.ok.inj read
        exact ⟨tokens, tokenize_ok.mp tokenized, derives_of_parse parsed⟩
  · rintro ⟨tokens, tiles, derives⟩
    simp [readExpr, tokenize_ok.mpr tiles, parse_of_derives derives]

namespace Expr

variable {α : Type}

mutual

def bare : Expr α → Expr Unit
  | number _ q => number () q
  | text _ content => text () content
  | boolean _ b => boolean () b
  | list _ items => list () (bareAll items)
  | signed _ sign operand => signed () sign operand.bare
  | binary _ op left right => binary () op left.bare right.bare

def bareAll : List (Expr α) → List (Expr Unit)
  | [] => []
  | e :: es => e.bare :: bareAll es

end

theorem bareAll_eq (items : List (Expr α)) : bareAll items = items.map bare := by
  induction items with
  | nil => rfl
  | cons e es ih => rw [bareAll, ih, List.map_cons]

@[simp] theorem bare_withNote (note : α) (e : Expr α) : (e.withNote note).bare = e.bare := by
  cases e <;> rfl

end Expr

/-! Phrases of the same kinds of tokens. -/

/-- These tokens have an expression of their own that differs from this one in notes only. -/
def Alike (P : List Token → Expr Span → Prop) (tokens : List Token) (e : Expr Span) : Prop :=
  ∀ others : List Token, others.map Token.kind = tokens.map Token.kind →
    ∃ e', P others e' ∧ e'.bare = e.bare

theorem Separated.alike {P : List Token → Expr Span → Prop} {pieces : List Piece}
    {tokens others : List Token} (separated : Separated pieces tokens)
    (each : ∀ piece ∈ pieces, Alike P piece.tokens piece.expr)
    (same : others.map Token.kind = tokens.map Token.kind) :
    ∃ pieces', Separated pieces' others ∧ (∀ piece ∈ pieces', P piece.tokens piece.expr) ∧
      (pieces'.map Piece.expr).map Expr.bare = (pieces.map Piece.expr).map Expr.bare := by
  induction separated generalizing others with
  | none =>
    obtain rfl : others = [] := by simpa using same
    exact ⟨[], .none, by simp, rfl⟩
  | last piece =>
    obtain ⟨e, derives, bare⟩ := each piece (by simp) others same
    exact ⟨[⟨others, e⟩], .last ⟨others, e⟩, by simpa using derives, by simpa using bare⟩
  | @comma piece comma pieces tokens kind _ ih =>
    rw [List.map_append, List.map_eq_append_iff] at same
    obtain ⟨first, rest, rfl, firstSame, restSame⟩ := same
    rw [List.map_cons, List.map_eq_cons_iff] at restSame
    obtain ⟨mark, more, rfl, markSame, moreSame⟩ := restSame
    obtain ⟨e, derives, bare⟩ := each piece (by simp) first firstSame
    obtain ⟨pieces', separated, derived, bares⟩ :=
      ih (fun piece mem => each piece (by simp [mem])) moreSame
    refine ⟨_, @Separated.comma ⟨first, e⟩ mark _ _ (markSame.trans kind) separated, ?_, ?_⟩
    · simpa using ⟨derives, derived⟩
    · simp_all

theorem steps_alike {P : List Token → Expr Span → Prop} {ops : List Operator} {steps : List Step}
    {others : List Token}
    (marks : ∀ step ∈ steps, step.mark.kind = step.op.mark ∧ step.op ∈ ops)
    (each : ∀ step ∈ steps, Alike P step.right.tokens step.right.expr)
    (same : others.map Token.kind = (steps.flatMap Step.tokens).map Token.kind) :
    ∃ steps' : List Step, others = steps'.flatMap Step.tokens ∧
      (∀ step ∈ steps', step.mark.kind = step.op.mark ∧ step.op ∈ ops) ∧
      (∀ step ∈ steps', P step.right.tokens step.right.expr) ∧
      ∀ e e' : Expr Span, e'.bare = e.bare →
        (steps'.foldl Step.apply e').bare = (steps.foldl Step.apply e).bare := by
  induction steps generalizing others with
  | nil =>
    obtain rfl : others = [] := by simpa using same
    exact ⟨[], rfl, by simp, by simp, fun e e' bare => bare⟩
  | cons step steps ih =>
    rw [List.flatMap_cons, List.map_append, List.map_eq_append_iff] at same
    obtain ⟨first, rest, rfl, firstSame, restSame⟩ := same
    rw [Step.tokens, List.map_cons, List.map_eq_cons_iff] at firstSame
    obtain ⟨mark, right, rfl, markSame, rightSame⟩ := firstSame
    obtain ⟨r, derives, rightBare⟩ := each step (by simp) right rightSame
    obtain ⟨steps', rfl, marks', derived, bares⟩ := ih (fun step mem => marks step (by simp [mem]))
      (fun step mem => each step (by simp [mem])) restSame
    refine ⟨⟨mark, step.op, ⟨right, r⟩⟩ :: steps', by simp [Step.tokens], ?_, ?_, ?_⟩
    · simpa [markSame] using ⟨marks step (by simp), marks'⟩
    · simpa using ⟨derives, derived⟩
    · intro e e' bare
      exact bares _ _ (by simp [Step.apply, Expr.bare, bare, rightBare])

theorem chain_alike {P Q : List Token → Expr Span → Prop} {ops : List Operator} {first : Piece}
    {steps : List Step} {others : List Token} (begins : Alike P first.tokens first.expr)
    (marks : ∀ step ∈ steps, step.mark.kind = step.op.mark ∧ step.op ∈ ops)
    (each : ∀ step ∈ steps, Alike Q step.right.tokens step.right.expr)
    (same : others.map Token.kind = (first.tokens ++ steps.flatMap Step.tokens).map Token.kind) :
    ∃ (first' : Piece) (steps' : List Step), others = first'.tokens ++ steps'.flatMap Step.tokens ∧
      P first'.tokens first'.expr ∧
      (∀ step ∈ steps', step.mark.kind = step.op.mark ∧ step.op ∈ ops) ∧
      (∀ step ∈ steps', Q step.right.tokens step.right.expr) ∧
      (steps'.foldl Step.apply first'.expr).bare = (steps.foldl Step.apply first.expr).bare := by
  rw [List.map_append, List.map_eq_append_iff] at same
  obtain ⟨tokens, rest, rfl, firstSame, restSame⟩ := same
  obtain ⟨e, derives, bare⟩ := begins tokens firstSame
  obtain ⟨steps', rfl, marks, derived, bares⟩ := steps_alike marks each restSame
  exact ⟨⟨tokens, e⟩, steps', rfl, derives, marks, derived, bares _ _ bare⟩

theorem enclosed_alike {opening closing : Token} {tokens others : List Token}
    (same : others.map Token.kind = (opening :: (tokens ++ [closing])).map Token.kind) :
    ∃ opening' tokens' closing', others = opening' :: (tokens' ++ [closing']) ∧
      opening'.kind = opening.kind ∧ tokens'.map Token.kind = tokens.map Token.kind ∧
        closing'.kind = closing.kind := by
  obtain ⟨opening', rest, rfl, openSame, restSame⟩ := List.map_eq_cons_iff.mp same
  rw [List.map_append, List.map_eq_append_iff] at restSame
  obtain ⟨tokens', last, rfl, tokensSame, lastSame⟩ := restSame
  obtain ⟨closing', rfl, closeSame⟩ := List.map_eq_singleton_iff.mp lastSame
  exact ⟨opening', tokens', closing', rfl, openSame, tokensSame, closeSame⟩

theorem Derives.alike {grammar : Grammar} {phrase : Phrase} {levels : Nat} {tokens : List Token}
    {e : Expr Span} (derives : Derives grammar phrase levels tokens e) :
    Alike (Derives grammar phrase levels) tokens e := by
  intro others same
  induction derives generalizing others with
  | number kind parses =>
    obtain ⟨token, rfl, kind'⟩ := List.map_eq_singleton_iff.mp same
    exact ⟨_, .number (kind'.trans kind) parses, rfl⟩
  | text kind =>
    obtain ⟨token, rfl, kind'⟩ := List.map_eq_singleton_iff.mp same
    exact ⟨_, .text (kind'.trans kind), rfl⟩
  | trueWord kind =>
    obtain ⟨token, rfl, kind'⟩ := List.map_eq_singleton_iff.mp same
    exact ⟨_, .trueWord (kind'.trans kind), rfl⟩
  | falseWord kind =>
    obtain ⟨token, rfl, kind'⟩ := List.map_eq_singleton_iff.mp same
    exact ⟨_, .falseWord (kind'.trans kind), rfl⟩
  | list opens closes separated _ ih =>
    obtain ⟨opening, tokens, closing, rfl, openSame, tokensSame, closeSame⟩ := enclosed_alike same
    obtain ⟨pieces, separated, derived, bares⟩ := separated.alike ih tokensSame
    refine ⟨_, .list (openSame.trans opens) (closeSame.trans closes) separated derived, ?_⟩
    simp only [Expr.bare, Expr.bareAll_eq, bares]
  | @unit _ opening closing opens closes =>
    obtain ⟨opening', rest, rfl, openSame, restSame⟩ := List.map_eq_cons_iff.mp same
    obtain ⟨closing', rfl, closeSame⟩ := List.map_eq_singleton_iff.mp restSame
    exact ⟨_, .unit (openSame.trans opens) (closeSame.trans closes), rfl⟩
  | group opens closes _ ih =>
    obtain ⟨opening, tokens, closing, rfl, openSame, tokensSame, closeSame⟩ := enclosed_alike same
    obtain ⟨e', derives, bare⟩ := ih tokens tokensSame
    exact ⟨_, .group (openSame.trans opens) (closeSame.trans closes) derives, by simp [bare]⟩
  | tuple opens separates closes _ separated _ ih ihs =>
    obtain ⟨opening, inner, closing, rfl, openSame, innerSame, closeSame⟩ := enclosed_alike same
    rw [List.map_append, List.map_eq_append_iff] at innerSame
    obtain ⟨first, rest, rfl, firstSame, restSame⟩ := innerSame
    obtain ⟨comma, tokens, rfl, commaSame, tokensSame⟩ := List.map_eq_cons_iff.mp restSame
    obtain ⟨e', derives, bare⟩ := ih first firstSame
    obtain ⟨pieces, separated, derived, bares⟩ := separated.alike ihs tokensSame
    refine ⟨_, @Derives.tuple _ _ _ _ _ ⟨first, e'⟩ _ _ (openSame.trans opens)
      (commaSame.trans separates) (closeSame.trans closes) derives separated derived, ?_⟩
    simp only [Expr.bare, Expr.bareAll, Expr.bareAll_eq, bare, bares]
  | unsigned _ ih =>
    obtain ⟨e', derives, bare⟩ := ih others same
    exact ⟨e', .unsigned derives, bare⟩
  | signed kind _ ih =>
    obtain ⟨mark, operand, rfl, markSame, operandSame⟩ := List.map_eq_cons_iff.mp same
    obtain ⟨e', derives, bare⟩ := ih operand operandSame
    exact ⟨_, .signed (markSame.trans kind) derives, by simp [Expr.bare, bare]⟩
  | product _ marks _ ih ihs =>
    obtain ⟨first, steps, rfl, derives, marks, derived, bare⟩ := chain_alike ih marks ihs same
    exact ⟨_, .product derives marks derived, bare⟩
  | sum _ marks _ ih ihs =>
    obtain ⟨first, steps, rfl, derives, marks, derived, bare⟩ := chain_alike ih marks ihs same
    exact ⟨_, .sum derives marks derived, bare⟩
  | literal _ ih =>
    obtain ⟨e', derives, bare⟩ := ih others same
    exact ⟨e', .literal derives, bare⟩
  | signedNumber kind number parses =>
    obtain ⟨mark, rest, rfl, markSame, restSame⟩ := List.map_eq_cons_iff.mp same
    obtain ⟨token, rfl, tokenSame⟩ := List.map_eq_singleton_iff.mp restSame
    exact ⟨_, .signedNumber (markSame.trans kind) (tokenSame.trans number) parses, rfl⟩

/-- The characters that the tokens of a phrase cover are read as that phrase. -/
theorem Tiles.Cover.readExpr {grammar : Grammar} {position : Position} {slice : List Char}
    {tokens : List Token} {e : Expr Span} (cover : Tiles.Cover position slice tokens)
    (derives : Derives grammar grammar.item nestingLimit tokens e) :
    ∃ e', readExpr grammar (String.ofList slice) = .ok e' ∧ e'.bare = e.bare := by
  obtain ⟨own, tiles, same⟩ := cover.anywhere .start
  obtain ⟨e', derives, bare⟩ := derives.alike (beforeEnd own) same
  exact ⟨e', readExpr_ok.mpr ⟨own, by rwa [String.toList_ofList], derives⟩, bare⟩

end Terse

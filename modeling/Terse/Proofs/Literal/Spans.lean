import Terse.Proofs.Literal.Rereading

namespace Terse

namespace Expr

variable {α : Type}

def children : Expr α → List (Expr α)
  | number _ _ | text _ _ | boolean _ _ => []
  | list _ items => items
  | signed _ _ operand => [operand]
  | binary _ _ left right => [left, right]

@[simp] theorem children_withNote (note : α) (e : Expr α) : (e.withNote note).children = e.children := by
  cases e <;> rfl

@[simp] theorem note_withNote (note : α) (e : Expr α) : (e.withNote note).note = note := by
  cases e <;> rfl

inductive Within (e : Expr α) : Expr α → Prop where
  | self : Within e e
  | child {x y : Expr α} : Within e x → y ∈ x.children → Within e y

end Expr

def Span.slice (source : String) (span : Span) : String :=
  String.Pos.Raw.extract source ⟨span.start⟩ ⟨span.stop⟩

/-! The span of a phrase. -/

/-- The span goes from the first of these tokens to the last. -/
def Bounds (tokens : List Token) (span : Span) : Prop :=
  ∃ first ∈ tokens.head?, ∃ last ∈ tokens.getLast?, span = first.span.join last.span

namespace Bounds

theorem single (token : Token) : Bounds [token] token.span :=
  ⟨token, rfl, token, rfl, rfl⟩

theorem enclosed (opening closing : Token) (tokens : List Token) :
    Bounds (opening :: (tokens ++ [closing])) (opening.span.join closing.span) :=
  ⟨opening, rfl, closing, by rw [← List.cons_append, List.getLast?_append]; rfl, rfl⟩

theorem append {tokens others : List Token} {first last : Span} (begins : Bounds tokens first)
    (ends : Bounds others last) : Bounds (tokens ++ others) (first.join last) := by
  obtain ⟨a, front, _, _, rfl⟩ := begins
  obtain ⟨_, _, b, back, rfl⟩ := ends
  refine ⟨a, ?_, b, ?_, rfl⟩
  · simp only [Option.mem_def] at front
    simp [front]
  · simp only [Option.mem_def] at back
    simp [back]

theorem cons (mark : Token) {tokens : List Token} {span : Span} (bounds : Bounds tokens span) :
    Bounds (mark :: tokens) (mark.span.join span) :=
  (single mark).append bounds

theorem chain {tokens : List Token} {e : Expr Span} {steps : List Step} (begins : Bounds tokens e.note)
    (each : ∀ step ∈ steps, Bounds step.right.tokens step.right.expr.note) :
    Bounds (tokens ++ steps.flatMap Step.tokens) (steps.foldl Step.apply e).note := by
  induction steps generalizing tokens e with
  | nil => simpa using begins
  | cons step steps ih =>
    rw [List.flatMap_cons, ← List.append_assoc]
    refine ih ?_ fun step mem => each step (by simp [mem])
    have longer := begins.append ((each step (by simp)).cons step.mark)
    exact longer

theorem start_mem {tokens : List Token} {span : Span} (bounds : Bounds tokens span) :
    ∃ token ∈ tokens, token.span.start = span.start := by
  obtain ⟨first, front, _, _, rfl⟩ := bounds
  exact ⟨first, List.mem_of_mem_head? front, rfl⟩

theorem stop_mem {tokens : List Token} {span : Span} (bounds : Bounds tokens span) :
    ∃ token ∈ tokens, token.span.stop = span.stop := by
  obtain ⟨_, _, last, back, rfl⟩ := bounds
  exact ⟨last, List.mem_of_mem_getLast? back, rfl⟩

theorem contains {tokens : List Token} {span : Span} {token : Token} (bounds : Bounds tokens span)
    (ordered : Ordered tokens) (mem : token ∈ tokens) :
    span.start ≤ token.span.start ∧ token.span.stop ≤ span.stop := by
  obtain ⟨first, front, last, back, rfl⟩ := bounds
  have each := ordered.each token mem
  constructor
  · obtain ⟨others, rfl⟩ := List.head?_eq_some_iff.mp front
    rcases List.mem_cons.mp mem with rfl | mem
    · exact Nat.le_refl _
    · have before := (List.pairwise_cons.mp ordered.pairwise).1 token mem
      have := ordered.each first (by simp)
      exact Nat.le_trans this before
  · obtain ⟨others, rfl⟩ := List.getLast?_eq_some_iff.mp back
    rcases List.mem_append.mp mem with mem | mem
    · have before := (List.pairwise_append.mp ordered.pairwise).2.2 token mem last (by simp)
      have := ordered.each last (by simp)
      exact Nat.le_trans before this
    · obtain rfl := List.mem_singleton.mp mem
      exact Nat.le_refl _

end Bounds

theorem Derives.bounds {grammar : Grammar} {phrase : Phrase} {levels : Nat} {tokens : List Token}
    {e : Expr Span} (derives : Derives grammar phrase levels tokens e) : Bounds tokens e.note := by
  induction derives with
  | number | text | trueWord | falseWord => exact .single _
  | list | tuple => exact .enclosed _ _ _
  | @unit _ opening closing => exact .enclosed opening closing []
  | group =>
    rw [Expr.note_withNote]
    exact .enclosed _ _ _
  | unsigned _ ih | literal _ ih => exact ih
  | signed _ _ ih => exact ih.cons _
  | product _ _ _ ih ihs | sum _ _ _ ih ihs => exact ih.chain ihs
  | @signedNumber _ mark token => exact (Bounds.single token).cons mark

/-! The children of a phrase. -/

inductive Scattered : List Piece → List Token → Prop where
  | none {tokens : List Token} : Scattered [] tokens
  | piece {gap rest : List Token} {piece : Piece} {pieces : List Piece} : Scattered pieces rest →
      Scattered (piece :: pieces) (gap ++ (piece.tokens ++ rest))

namespace Scattered

variable {pieces : List Piece} {tokens : List Token}

theorem behind (gap : List Token) (scattered : Scattered pieces tokens) :
    Scattered pieces (gap ++ tokens) := by
  cases scattered with
  | none => exact .none
  | piece scattered =>
    rw [← List.append_assoc]
    exact .piece scattered

theorem before (gap : List Token) (scattered : Scattered pieces tokens) :
    Scattered pieces (tokens ++ gap) := by
  induction scattered with
  | none => exact .none
  | piece _ ih =>
    rw [List.append_assoc, List.append_assoc]
    exact .piece ih

theorem enclosed (opening closing : Token) (scattered : Scattered pieces tokens) :
    Scattered pieces (opening :: (tokens ++ [closing])) :=
  (scattered.before [closing]).behind [opening]

theorem of_separated (separated : Separated pieces tokens) : Scattered pieces tokens := by
  induction separated with
  | none => exact .none
  | last piece => simpa using @Scattered.piece [] [] piece [] .none
  | @comma piece comma pieces tokens _ _ ih => exact @Scattered.piece [] _ piece _ (ih.behind [comma])

theorem split {piece : Piece} (scattered : Scattered pieces tokens) (mem : piece ∈ pieces) :
    ∃ left right, tokens = left ++ (piece.tokens ++ right) := by
  induction scattered with
  | none => simp at mem
  | @piece gap rest first pieces _ ih =>
    rcases List.mem_cons.mp mem with rfl | mem
    · exact ⟨gap, rest, rfl⟩
    · obtain ⟨left, right, rfl⟩ := ih mem
      exact ⟨gap ++ (first.tokens ++ left), right, by simp⟩

theorem subset {piece : Piece} (scattered : Scattered pieces tokens) (mem : piece ∈ pieces) :
    piece.tokens ⊆ tokens := by
  obtain ⟨left, right, rfl⟩ := scattered.split mem
  simp

theorem pairwise {R : Token → Token → Prop} (scattered : Scattered pieces tokens)
    (ordered : tokens.Pairwise R) :
    pieces.Pairwise fun left right => ∀ a ∈ left.tokens, ∀ b ∈ right.tokens, R a b := by
  induction scattered with
  | none => exact .nil
  | @piece gap rest piece pieces scattered ih =>
    obtain ⟨_, ordered, _⟩ := List.pairwise_append.mp ordered
    obtain ⟨_, ordered, across⟩ := List.pairwise_append.mp ordered
    refine .cons (fun other mem a inside b outside => ?_) (ih ordered)
    exact across a inside b (scattered.subset mem outside)

end Scattered

def Parts (P : List Token → Expr Span → Prop) (tokens : List Token) (e : Expr Span) : Prop :=
  ∃ pieces : List Piece, pieces.map Piece.expr = e.children ∧ Scattered pieces tokens ∧
    ∀ piece ∈ pieces, P piece.tokens piece.expr

namespace Parts

variable {P : List Token → Expr Span → Prop} {tokens : List Token} {e : Expr Span}

theorem chain {first : Piece} {init : List Step} {last : Step}
    (left : P (first.tokens ++ init.flatMap Step.tokens) (init.foldl Step.apply first.expr))
    (right : P last.right.tokens last.right.expr) :
    Parts P (first.tokens ++ (init ++ [last]).flatMap Step.tokens)
      ((init ++ [last]).foldl Step.apply first.expr) := by
  refine ⟨[⟨_, _⟩, last.right], ?_, ?_, by simpa using ⟨left, right⟩⟩
  · simp [Step.apply, Expr.children]
  · have scattered := @Scattered.piece [] _
      ⟨first.tokens ++ init.flatMap Step.tokens, init.foldl Step.apply first.expr⟩ _
      (@Scattered.piece [last.mark] [] last.right [] .none)
    simpa [Step.tokens] using scattered

theorem inside (parts : Parts P tokens e) (bounded : ∀ {tokens e}, P tokens e → Bounds tokens e.note)
    (bounds : Bounds tokens e.note) (ordered : Ordered tokens) :
    ∀ child ∈ e.children, e.note.start ≤ child.note.start ∧ child.note.stop ≤ e.note.stop := by
  obtain ⟨pieces, children, scattered, each⟩ := parts
  rw [← children, List.forall_mem_map]
  intro piece mem
  obtain ⟨first, begins, start⟩ := (bounded (each piece mem)).start_mem
  obtain ⟨last, ends, stop⟩ := (bounded (each piece mem)).stop_mem
  rw [← start, ← stop]
  exact ⟨(bounds.contains ordered (scattered.subset mem begins)).1,
    (bounds.contains ordered (scattered.subset mem ends)).2⟩

theorem siblings (parts : Parts P tokens e)
    (bounded : ∀ {tokens e}, P tokens e → Bounds tokens e.note) (ordered : Ordered tokens) :
    e.children.Pairwise fun left right => left.note.stop ≤ right.note.start := by
  obtain ⟨pieces, children, scattered, each⟩ := parts
  rw [← children, List.pairwise_map]
  refine (scattered.pairwise ordered.pairwise).imp_of_mem fun {left right} before behind across => ?_
  obtain ⟨last, ends, stop⟩ := (bounded (each left before)).stop_mem
  obtain ⟨first, begins, start⟩ := (bounded (each right behind)).start_mem
  rw [← start, ← stop]
  exact across last ends first begins

end Parts

namespace Derives

variable {grammar : Grammar} {phrase : Phrase} {levels : Nat} {tokens : List Token} {e : Expr Span}

theorem parts (derives : Derives grammar phrase levels tokens e) (mem : phrase ∈ grammar.phrases) :
    Parts (Derives grammar grammar.item levels) tokens e := by
  induction derives with
  | number | text | trueWord | falseWord | unit => exact ⟨[], rfl, .none, by simp⟩
  | @list _ opening closing pieces _ _ _ separated each =>
    exact ⟨pieces, rfl, (Scattered.of_separated separated).enclosed opening closing,
      fun piece mem => (each piece mem).succ⟩
  | @group _ opening closing _ _ _ _ _ ih =>
    obtain ⟨pieces, children, scattered, each⟩ := ih grammar.item_mem
    exact ⟨pieces, by simpa using children, scattered.enclosed opening closing,
      fun piece mem => (each piece mem).succ⟩
  | @tuple _ opening comma closing first pieces tokens _ marks _ begins separated each =>
    have separated : Separated (first :: pieces) (first.tokens ++ comma :: tokens) :=
      .comma marks separated
    refine ⟨first :: pieces, rfl, (Scattered.of_separated separated).enclosed opening closing, ?_⟩
    simpa using ⟨begins.succ, fun piece mem => (each piece mem).succ⟩
  | unsigned _ ih | literal _ ih => exact ih (Grammar.under_mem mem)
  | @signed _ mark sign tokens operand _ derives =>
    have inner : Derives grammar grammar.item _ tokens operand := derives.asItem mem
    refine ⟨[⟨tokens, operand⟩], rfl, ?_, by simpa using inner.succ⟩
    simpa using @Scattered.piece [mark] [] ⟨tokens, operand⟩ [] .none
  | @product levels first steps begins marks each ih =>
    have unary : Phrase.unary ∈ grammar.phrases := Grammar.under_mem mem
    rcases List.eq_nil_or_concat steps with rfl | ⟨init, last, rfl⟩
    · simpa using ih unary
    · rw [List.concat_eq_append] at marks each ⊢
      have left := Derives.product begins (fun step mem => marks step (by simp [mem]))
        fun step mem => each step (List.mem_append_left [last] mem)
      exact .chain (left.asItem mem) ((each last (by simp)).asItem unary).succ
  | @sum levels first steps begins marks each ih =>
    have product : Phrase.product ∈ grammar.phrases := Grammar.under_mem mem
    rcases List.eq_nil_or_concat steps with rfl | ⟨init, last, rfl⟩
    · simpa using ih product
    · rw [List.concat_eq_append] at marks each ⊢
      have left := Derives.sum begins (fun step mem => marks step (by simp [mem]))
        fun step mem => each step (List.mem_append_left [last] mem)
      exact .chain (left.asItem mem) ((each last (by simp)).asItem product).succ
  | @signedNumber levels mark token sign digits q _ kind parses =>
    refine ⟨[⟨[token], .number token.span q⟩], rfl, ?_, ?_⟩
    · simpa using @Scattered.piece [mark] [] ⟨[token], .number token.span q⟩ [] .none
    · have number : Derives grammar .atom (levels + 2) [token] _ := .number kind parses
      simpa using number.asItem (Grammar.under_mem mem)

end Derives

/-- Whatever is within a phrase is made up of some of its tokens, and would be an item by itself. -/
theorem Expr.Within.derives {grammar : Grammar} {levels : Nat} {tokens : List Token} {e x : Expr Span}
    (inside : e.Within x) (derives : Derives grammar grammar.item levels tokens e) :
    ∃ before middle after, tokens = before ++ (middle ++ after) ∧
      Derives grammar grammar.item levels middle x := by
  induction inside with
  | self => exact ⟨[], tokens, [], by simp, derives⟩
  | child _ mem ih =>
    obtain ⟨before, middle, after, rfl, here⟩ := ih
    obtain ⟨pieces, children, scattered, each⟩ := here.parts grammar.item_mem
    rw [← children] at mem
    obtain ⟨piece, found, rfl⟩ := List.mem_map.mp mem
    obtain ⟨left, right, split⟩ := scattered.split found
    exact ⟨before ++ left, piece.tokens, right ++ after, by simp [split], each piece found⟩

/-! The text of a phrase. -/

theorem Tiles.Cover.slice {source : String} {head slice rest : List Char} {tokens : List Token}
    {span : Span} (cover : Tiles.Cover (Position.start.afterAll head) slice tokens)
    (bounds : Bounds tokens span) (chars : source.toList = head ++ (slice ++ rest)) :
    span.start = String.utf8Len head ∧ span.stop = String.utf8Len head + String.utf8Len slice ∧
      span.slice source = String.ofList slice := by
  obtain ⟨first, front, last, back, rfl⟩ := bounds
  have start : first.span.start = String.utf8Len head := by
    rw [cover.start first front, Position.offset_afterAll]
    exact Nat.zero_add _
  have stop : last.span.stop = String.utf8Len head + String.utf8Len slice := by
    rw [cover.stop last back, Position.offset_afterAll, Position.offset_afterAll]
    exact congrArg (· + _) (Nat.zero_add _)
  refine ⟨start, stop, ?_⟩
  have whole : source = String.ofList (head ++ slice ++ rest) := by
    rw [List.append_assoc, ← chars, String.ofList_toList]
  simp only [Span.slice, Span.join, start, stop, whole]
  exact String.extract_of_valid head slice rest

theorem isValid_utf8Len {source : String} {before after : List Char}
    (chars : source.toList = before ++ after) :
    (⟨String.utf8Len before⟩ : String.Pos.Raw).IsValid source := by
  have whole : source = String.ofList before ++ String.ofList after := by
    rw [← String.ofList_append, ← chars, String.ofList_toList]
  refine String.Pos.Raw.isValid_iff_exists_append.mpr ⟨_, _, whole, ?_⟩
  simp

/-- The span of this expression is where the source has it, with its children apart and in order. -/
structure Delimits (grammar : Grammar) (source : String) (e : Expr Span) : Prop where
  validStart : (⟨e.note.start⟩ : String.Pos.Raw).IsValid source
  validStop : (⟨e.note.stop⟩ : String.Pos.Raw).IsValid source
  nonempty : e.note.start < e.note.stop
  inSource : e.note.stop ≤ source.utf8ByteSize
  inside : ∀ child ∈ e.children, e.note.start ≤ child.note.start ∧ child.note.stop ≤ e.note.stop
  siblings : e.children.Pairwise fun left right => left.note.stop ≤ right.note.start
  rereads : ∃ e', readExpr grammar (e.note.slice source) = .ok e' ∧ e'.bare = e.bare

/-- The span of every expression within one that was read delimits the text of that expression. -/
theorem spans_delimit {grammar : Grammar} {source : String} {e x : Expr Span}
    (read : readExpr grammar source = .ok e) (inside : e.Within x) : Delimits grammar source x := by
  obtain ⟨tokens, tiles, whole⟩ := readExpr_ok.mp read
  obtain ⟨last, ends⟩ := tiles.ends
  obtain ⟨before, middle, after, split, derives⟩ := inside.derives whole
  obtain rfl : tokens = before ++ (middle ++ (after ++ [last])) := by
    rw [ends, split, List.append_assoc, List.append_assoc]
  -- At least the end marker follows the tokens of the phrase.
  obtain ⟨head, slice, rest, chars, cover⟩ :=
    tiles.cover (List.length_pos_iff.mp derives.length_pos) (by simp)
  obtain ⟨start, stop, text⟩ := cover.slice derives.bounds chars
  have ordered : Ordered middle :=
    tiles.ordered.sublist ((List.sublist_append_left ..).trans (List.sublist_append_right ..))
  have size : source.utf8ByteSize = String.utf8Len head + (String.utf8Len slice + String.utf8Len rest) := by
    rw [← String.ofList_toList (s := source), chars, String.utf8ByteSize_ofList,
      String.utf8Len_append, String.utf8Len_append]
  have some : 0 < String.utf8Len slice :=
    Nat.pos_of_ne_zero fun none => cover.nonempty (String.utf8Len_eq_zero.mp none)
  have parts := derives.parts grammar.item_mem
  exact {
    validStart := start ▸ isValid_utf8Len chars
    validStop := by
      rw [stop, ← String.utf8Len_append]
      exact isValid_utf8Len (by rw [chars, List.append_assoc])
    nonempty := by omega
    inSource := by omega
    inside := parts.inside Derives.bounds derives.bounds ordered
    siblings := parts.siblings Derives.bounds ordered
    rereads := text ▸ cover.readExpr derives }

theorem spans_delimit_accented :
    ∃ e, readExpr .arithmetic "[ \"é\" ] * (2)" = .ok e ∧ e.Within (.text ⟨2, 6, 1, 3⟩ "é") ∧
      Delimits .arithmetic "[ \"é\" ] * (2)" (.text ⟨2, 6, 1, 3⟩ "é") := by
  have read : readExpr .arithmetic "[ \"é\" ] * (2)" =
      .ok (.binary ⟨0, 14, 1, 1⟩ .mul (.list ⟨0, 8, 1, 1⟩ [.text ⟨2, 6, 1, 3⟩ "é"])
        (.number ⟨11, 14, 1, 11⟩ 2)) := by
    cbv
  have inside {a b : Span} {c x : Expr Span} : (Expr.binary a .mul (.list b [x]) c).Within x :=
    .child (x := .list b [x]) (.child .self (List.mem_cons_self ..)) (List.mem_cons_self ..)
  exact ⟨_, read, inside, spans_delimit read inside⟩

end Terse

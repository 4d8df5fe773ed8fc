import Mathlib.Data.List.Basic
import Terse.Input.Stack

/-! Sources of input across nested calls. Where each source stands follows from how often it has been
read, whatever other sources were read in between and however often it was put aside, so a state can
be told from the history alone. -/
namespace Terse

namespace LineReader

def asked (reader : LineReader) (prompts : List String) : LineReader :=
  prompts.foldl (fun reader prompt => (reader.readLine prompt).2) reader

theorem asked_append (reader : LineReader) (prompts : List String) (prompt : String) :
    reader.asked (prompts ++ [prompt]) = ((reader.asked prompts).readLine prompt).2 := by
  simp [asked]

theorem asked_eq (reader : LineReader) (prompts : List String) :
    reader.asked prompts = { reader with shown := reader.shown ++ prompts } := by
  induction prompts generalizing reader with
  | nil => simp [asked]
  | cons prompt prompts ih =>
    change (reader.readLine prompt).2.asked prompts = _
    rw [ih, readLine, List.append_assoc, List.singleton_append]

/-- What a reader with a state answers depends on the state that the prompts before have led to. -/
theorem readLine_asked_ofState {α : Type} (step : α → String → Option String × α) (state : α)
    (prompts : List String) (prompt : String) :
    (((ofState step state).asked prompts).readLine prompt).1 =
      (step (prompts.foldl (fun state prompt => (step state prompt).2) state) prompt).1 := by
  rw [asked_eq]
  rfl

/-- Each time it is asked, a scripted reader gives its next line. -/
theorem readLine_asked_scripted (lines prompts : List String) (prompt : String) :
    (((scripted lines).asked prompts).readLine prompt).1 = lines[prompts.length]? := by
  have rest : prompts.foldl (fun lines _ => lines.tail) lines = lines.drop prompts.length := by
    induction prompts generalizing lines with
    | nil => rfl
    | cons _ prompts ih => rw [List.foldl_cons, ih, List.drop_tail, List.length_cons]
  rw [scripted, readLine_asked_ofState, rest, List.head?_drop]

end LineReader

namespace Input

def answerValue (flags : Flags) : Option String → Value
  | some line => evaluateLine line flags.literalsOnly
  | none => .ofInt 0

/-- What can happen to the input of an evaluation. -/
inductive Move where
  | take
  | pop (count : Nat) (stack : Stack)
  | enter (args : List Value)
  /-- The source that was put aside last becomes current again. -/
  | restore
  | flag (flags : Flags)

/-- A session, and what the calls in progress have put aside, the latest first. -/
structure Calls where
  session : Session
  saved : List (Option (Cycle Value))

/-- The state after a move, and the values that input has given in it. -/
def Calls.after (calls : Calls) : Move → List Value × Calls
  | .take =>
    let (value, session) := calls.session.takeInput
    ([value], { calls with session := session })
  | .pop count stack =>
    ((stack.takeValues count calls.session).1.drop stack.length,
      { calls with session := (stack.pop count calls.session).2.2 })
  | .enter args =>
    let (previous, session) := calls.session.enter args
    ([], ⟨session, previous :: calls.saved⟩)
  | .restore =>
    match calls.saved with
    | [] => ([], calls)
    | previous :: saved => ([], ⟨calls.session.restore previous, saved⟩)
  | .flag flags => ([], { calls with session := { calls.session with flags := flags } })

/-- A value that was taken in, the number of the source that was to give it, and the flags then. -/
structure Read where
  source : Nat
  value : Value
  flags : Flags

def Read.prompt (read : Read) : String :=
  repeatText "> " read.flags.promptMarks

/-- What has happened. Sources are numbered as they come up: the outermost one is 0, and the arguments
of the n-th call are source n. -/
structure History where
  sources : List (List Value)
  /-- The sources of the calls in progress, the innermost first. -/
  active : List Nat
  flags : Flags
  reads : List Read

namespace History

def selected (history : History) : Nat :=
  if history.flags.readTop then 0 else history.active.head?.getD 0

def record (history : History) (values : List Value) : History :=
  { history with
    reads := history.reads ++ values.map fun value => ⟨history.selected, value, history.flags⟩ }

def after (history : History) (values : List Value) : Move → History
  | .take | .pop _ _ => history.record values
  | .enter args =>
    { history with
      sources := history.sources ++ [args]
      active := history.sources.length :: history.active }
  | .restore => { history with active := history.active.tail }
  | .flag flags => { history with flags := flags }

def values (history : History) (source : Nat) : List Value :=
  history.sources[source]?.getD []

def readsOf (history : History) (source : Nat) : List Read :=
  history.reads.filter (·.source = source)

def unserved (history : History) : List Read :=
  history.reads.filter fun read => (history.values read.source).isEmpty

/-- Where a source stands by the history: one without values is never moved. -/
def place (history : History) (source : Nat) : Cycle Value :=
  ⟨history.values source,
    if history.values source = [] then 0 else (history.readsOf source).length⟩

end History

structure Trail where
  calls : Calls
  history : History

namespace Trail

def start (inputs : List Value) (flags : Flags) (reader : LineReader) : Trail :=
  ⟨⟨.initial inputs flags reader, []⟩, ⟨[inputs], [], flags, []⟩⟩

def after (trail : Trail) (move : Move) : Trail :=
  ⟨(trail.calls.after move).2, trail.history.after (trail.calls.after move).1 move⟩

def run (trail : Trail) (moves : List Move) : Trail :=
  moves.foldl after trail

/-- The state is the one that the history tells, given the reader at the beginning. -/
structure Told (first : LineReader) (trail : Trail) : Prop where
  flags : trail.calls.session.flags = trail.history.flags
  top : trail.calls.session.top = trail.history.place 0
  calls : trail.calls.session.current :: trail.calls.saved =
    trail.history.active.map (fun source => some (trail.history.place source)) ++ [none]
  reader : trail.calls.session.reader = first.asked (trail.history.unserved.map Read.prompt)
  /-- Each source has given its values in turn, and behind the last one the first again. -/
  given : ∀ {source k : Nat} {read : Read}, trail.history.values source ≠ [] →
    (trail.history.readsOf source)[k]? = some read →
      (trail.history.values source)[k % (trail.history.values source).length]? = some read.value
  /-- For sources without values, the reader has been asked in turn, once for each value. -/
  lines : ∀ {k : Nat} {read : Read}, trail.history.unserved[k]? = some read →
    read.value = answerValue read.flags
      ((first.asked ((trail.history.unserved.take k).map Read.prompt)).readLine read.prompt).1
  distinct : trail.history.active.Nodup
  numbered : ∀ source ∈ trail.history.active,
    0 < source ∧ source < trail.history.sources.length
  outermost : 0 < trail.history.sources.length
  recorded : ∀ read ∈ trail.history.reads, read.source < trail.history.sources.length

/-- For sources without values, these lines have been used in turn, each once, and zeros behind them. -/
def LinesInTurn (lines : List String) (trail : Trail) : Prop :=
  ∀ (k : Nat) (read : Read), trail.history.unserved[k]? = some read →
    read.value = answerValue read.flags lines[k]?

/-- What one more read does to the sources and to the reader. -/
structure OneRead (before after : Trail) : Prop where
  served : before.calls.session.active = before.history.place before.history.selected
  moved : before.history.values before.history.selected ≠ [] →
    after.history.place before.history.selected =
      { before.history.place before.history.selected with
        position := (before.history.place before.history.selected).position + 1 }
  others : ∀ source, source ≠ before.history.selected →
    after.history.place source = before.history.place source
  reader : after.calls.session.reader =
    if before.history.values before.history.selected = [] then
      (before.calls.session.reader.readLine before.calls.session.prompt).2
    else before.calls.session.reader

end Trail

/-! What a value taken in adds to the history. -/

theorem eq_of_getElem?_concat {α : Type} {items : List α} {last item : α} {k : Nat}
    (found : (items ++ [last])[k]? = some item) :
    items[k]? = some item ∨ k = items.length ∧ last = item := by
  rcases Nat.lt_trichotomy k items.length with before | rfl | behind
  · rw [List.getElem?_append_left before] at found
    exact .inl found
  · rw [List.getElem?_concat_length] at found
    exact .inr ⟨rfl, Option.some.inj found⟩
  · rw [List.getElem?_eq_none (by simp; omega)] at found
    cases found

namespace History

section Record

variable (history : History) (value : Value)

theorem record_nil : history.record [] = history := by
  simp [record]

theorem record_cons (values : List Value) :
    history.record (value :: values) = (history.record [value]).record values := by
  simp [record, selected]

theorem readsOf_record (source : Nat) :
    (history.record [value]).readsOf source = history.readsOf source ++
      if history.selected = source then [⟨history.selected, value, history.flags⟩] else [] := by
  by_cases here : history.selected = source <;> simp [readsOf, record, here]

theorem unserved_record :
    (history.record [value]).unserved = history.unserved ++
      if history.values history.selected = [] then [⟨history.selected, value, history.flags⟩]
      else [] := by
  by_cases empty : history.values history.selected = []
  · have blank : ((history.values history.selected).isEmpty) = true := by rw [empty]; rfl
    rw [if_pos empty]
    simp only [unserved, record, List.map_cons, List.map_nil, List.filter_append]
    congr 1
    exact List.filter_cons_of_pos blank
  · have filled : ¬ (history.values history.selected).isEmpty = true := by
      rwa [List.isEmpty_iff]
    rw [if_neg empty]
    simp only [unserved, record, List.map_cons, List.map_nil, List.filter_append]
    congr 1
    exact List.filter_cons_of_neg filled

theorem place_record_of_ne {source : Nat} (ne : source ≠ history.selected) :
    (history.record [value]).place source = history.place source := by
  have reads : (history.record [value]).readsOf source = history.readsOf source := by
    rw [readsOf_record, if_neg (Ne.symm ne), List.append_nil]
  unfold place
  rw [reads]
  rfl

theorem place_record_of_empty (empty : history.values history.selected = []) (source : Nat) :
    (history.record [value]).place source = history.place source := by
  by_cases same : source = history.selected
  · subst same
    have empty' : (history.record [value]).values history.selected = [] := empty
    simp only [place, empty, empty', if_true]
  · exact place_record_of_ne history value same

theorem place_record (filled : history.values history.selected ≠ []) :
    (history.record [value]).place history.selected =
      { history.place history.selected with
        position := (history.place history.selected).position + 1 } := by
  have filled' : (history.record [value]).values history.selected ≠ [] := filled
  simp only [place, if_neg filled, if_neg filled', readsOf_record, if_true, List.length_append,
    List.length_singleton]
  rfl

theorem next?_place {source : Nat} (filled : history.values source ≠ []) :
    ∃ value, (history.values source)[(history.readsOf source).length %
        (history.values source).length]? = some value ∧
      (history.place source).next? = some (value,
        { history.place source with position := (history.place source).position + 1 }) := by
  have inside := Nat.mod_lt (history.readsOf source).length (List.length_pos_iff.mpr filled)
  refine ⟨_, List.getElem?_eq_getElem inside, ?_⟩
  unfold Cycle.next? place
  simp only [if_neg filled, List.getElem?_eq_getElem inside]

end Record

end History

end Input

namespace Session

variable {session : Session}

theorem takeInput_of_next {value : Value} {source : Cycle Value}
    (next : session.active.next? = some (value, source)) :
    session.takeInput = (value, session.withActive source) := by
  unfold takeInput
  rw [next]

theorem takeInput_of_empty (empty : session.active.next? = none) :
    session.takeInput =
      (Input.answerValue session.flags (session.reader.readLine session.prompt).1,
        { session with reader := (session.reader.readLine session.prompt).2 }) := by
  unfold takeInput
  rw [empty]
  rcases session.reader.readLine session.prompt with ⟨_ | line, reader⟩ <;> rfl

end Session

namespace Input.Trail

variable {first : LineReader} {trail : Trail}

namespace Told

theorem active_eq (told : trail.Told first) :
    trail.calls.session.active = trail.history.place trail.history.selected := by
  have stack := told.calls
  unfold Session.active History.selected
  rw [told.flags]
  by_cases readTop : trail.history.flags.readTop = true
  · rw [if_pos readTop, if_pos readTop, told.top]
  · rw [if_neg readTop, if_neg readTop, Session.innermost]
    cases active : trail.history.active with
    | nil =>
      rw [active] at stack
      rw [(List.cons.inj stack).1, Option.getD_none, told.top]
      rfl
    | cons source rest =>
      rw [active] at stack
      rw [(List.cons.inj stack).1]
      rfl

theorem selected_lt (told : trail.Told first) :
    trail.history.selected < trail.history.sources.length := by
  unfold History.selected
  split
  · exact told.outermost
  · cases active : trail.history.active with
    | nil => exact told.outermost
    | cons source rest => exact (told.numbered source (by simp [active])).2

theorem recorded_record (told : trail.Told first) {value : Value} :
    ∀ read ∈ (trail.history.record [value]).reads,
      read.source < (trail.history.record [value]).sources.length := by
  intro read mem
  rcases List.mem_append.mp mem with old | new
  · exact told.recorded read old
  · obtain rfl := List.mem_singleton.mp new
    exact told.selected_lt

theorem readsOf_eq_nil (told : trail.Told first) {source : Nat}
    (outside : trail.history.sources.length ≤ source) : trail.history.readsOf source = [] := by
  unfold History.readsOf
  rw [List.filter_eq_nil_iff]
  intro read mem
  have inside := told.recorded read mem
  simp only [decide_eq_true_eq]
  omega

theorem selected_ne (told : trail.Told first) (top : trail.history.selected = 0) {source : Nat}
    (mem : source ∈ trail.history.active) : source ≠ trail.history.selected := by
  have positive := (told.numbered source mem).1
  omega

theorem withActive (told : trail.Told first) (value : Value) :
    let history := trail.history.record [value]
    let session := trail.calls.session.withActive (history.place trail.history.selected)
    session.top = history.place 0 ∧
      session.current :: trail.calls.saved =
        history.active.map (fun source => some (history.place source)) ++ [none] := by
  intro history session
  have others {source : Nat} (ne : source ≠ trail.history.selected) :
      history.place source = trail.history.place source :=
    trail.history.place_record_of_ne value ne
  have stack := told.calls
  -- The flag redirects reads to the outermost source, as does being outside all calls.
  by_cases readTop : trail.history.flags.readTop = true
  · have top : trail.history.selected = 0 := if_pos readTop
    have readsTop : trail.calls.session.readsTop = true := by
      rw [Session.readsTop, told.flags, readTop, Bool.true_or]
    have put : session = { trail.calls.session with top := history.place 0 } := by
      simp only [session, Session.withActive, readsTop, if_true, top]
    rw [put]
    refine ⟨rfl, stack.trans ?_⟩
    congr 1
    exact List.map_congr_left fun source mem => by rw [others (told.selected_ne top mem)]
  · cases active : trail.history.active with
    | nil =>
      have top : trail.history.selected = 0 := by
        rw [History.selected, if_neg readTop, active]
        rfl
      rw [active] at stack
      have current : trail.calls.session.current = none := (List.cons.inj stack).1
      have readsTop : trail.calls.session.readsTop = true := by
        simp [Session.readsTop, Session.inCall, current]
      have put : session = { trail.calls.session with top := history.place 0 } := by
        simp only [session, Session.withActive, readsTop, if_true, top]
      have none_active : history.active = [] := active
      rw [put, none_active]
      exact ⟨rfl, stack⟩
    | cons source rest =>
      have selected : trail.history.selected = source := by
        rw [History.selected, if_neg readTop, active]
        rfl
      rw [active] at stack
      obtain ⟨current, saved⟩ := List.cons.inj stack
      have readsTop : trail.calls.session.readsTop = false := by
        simp [Session.readsTop, Session.inCall, current, told.flags, readTop]
      have put : session =
          { trail.calls.session with current := some (history.place source) } := by
        simp only [session, Session.withActive, readsTop, selected, Bool.false_eq_true, if_false]
      have same_active : history.active = source :: rest := active
      have distinct := told.distinct
      have numbered := told.numbered source
      rw [active] at distinct numbered
      have positive := (numbered (by simp)).1
      rw [put, same_active]
      refine ⟨told.top.trans (others (by omega)).symm, ?_⟩
      rw [List.map_cons, List.cons_append]
      congr 1
      refine saved.trans ?_
      congr 1
      refine List.map_congr_left fun other mem => ?_
      have ne : other ≠ source := by
        rintro rfl
        exact (List.nodup_cons.mp distinct).1 mem
      rw [others (by rwa [selected])]

theorem take (told : trail.Told first) :
    Told first ⟨{ trail.calls with session := trail.calls.session.takeInput.2 },
      trail.history.record [trail.calls.session.takeInput.1]⟩ := by
  have reads {value : Value} (source : Nat) := trail.history.readsOf_record value source
  by_cases empty : trail.history.values trail.history.selected = []
  · -- A line is asked for; no source has moved.
    have next : trail.calls.session.active.next? = none := by
      rw [told.active_eq, Cycle.next?_eq_none_iff]
      exact empty
    rw [Session.takeInput_of_empty next]
    generalize given : answerValue trail.calls.session.flags
      (trail.calls.session.reader.readLine trail.calls.session.prompt).1 = value
    have places (source : Nat) := trail.history.place_record_of_empty value empty source
    have prompt : trail.calls.session.prompt =
        Read.prompt ⟨trail.history.selected, value, trail.history.flags⟩ := by
      rw [Session.prompt, told.flags]
      rfl
    have unserved := trail.history.unserved_record value
    rw [if_pos empty] at unserved
    refine ⟨told.flags, told.top.trans (places 0).symm, ?_, ?_, ?_, ?_, told.distinct,
      told.numbered, told.outermost, told.recorded_record⟩
    · simp only [places]
      exact told.calls
    · rw [unserved, List.map_append, List.map_singleton, LineReader.asked_append, ← prompt,
        ← told.reader]
    · intro source k read filled found
      have ne : ¬ trail.history.selected = source := by
        rintro rfl
        exact filled empty
      rw [reads, if_neg ne, List.append_nil] at found
      exact told.given filled found
    · intro k read found
      rw [unserved] at found
      rw [unserved]
      rcases eq_of_getElem?_concat found with found | ⟨rfl, rfl⟩
      · have inside := (List.getElem?_eq_some_iff.mp found).1
        rw [List.take_append_of_le_length (Nat.le_of_lt inside)]
        exact told.lines found
      · rw [List.take_left, ← told.reader, ← prompt, ← given, told.flags]
  · -- The selected source gives its next value and moves by one.
    obtain ⟨value, element, next⟩ := trail.history.next?_place empty
    rw [← told.active_eq] at next
    rw [Session.takeInput_of_next next, told.active_eq,
      ← trail.history.place_record value empty]
    obtain ⟨top, calls⟩ := told.withActive value
    have unserved := trail.history.unserved_record value
    rw [if_neg empty, List.append_nil] at unserved
    have rest (source : Cycle Value) :
        (trail.calls.session.withActive source).flags = trail.calls.session.flags ∧
          (trail.calls.session.withActive source).reader = trail.calls.session.reader := by
      rw [Session.withActive]
      split <;> exact ⟨rfl, rfl⟩
    refine ⟨(rest _).1.trans told.flags, top, calls, ?_, ?_, ?_, told.distinct, told.numbered,
      told.outermost, told.recorded_record⟩
    · rw [unserved]
      exact (rest _).2.trans told.reader
    · intro source k read filled found
      rw [reads] at found
      by_cases same : trail.history.selected = source
      · subst same
        rw [if_pos rfl] at found
        rcases eq_of_getElem?_concat found with found | ⟨rfl, rfl⟩
        · exact told.given filled found
        · exact element
      · rw [if_neg same, List.append_nil] at found
        exact told.given filled found
    · intro k read found
      rw [unserved] at found ⊢
      exact told.lines found

theorem pop (told : trail.Told first) (count : Nat) (stack : Stack) :
    Told first ⟨{ trail.calls with
        session := (stack.takeValues count trail.calls.session).2.2 },
      trail.history.record
        ((stack.takeValues count trail.calls.session).1.drop stack.length)⟩ := by
  induction count generalizing trail stack with
  | zero =>
    rw [Stack.takeValues, List.drop_nil, History.record_nil]
    exact told
  | succ count ih =>
    cases stack with
    | cons value stack =>
      rw [Stack.takeValues]
      exact ih told stack
    | nil =>
      have rest := ih told.take []
      rw [List.length_nil, List.drop_zero] at rest
      rw [Stack.takeValues, List.length_nil, List.drop_zero, History.record_cons]
      exact rest

theorem enter (told : trail.Told first) (args : List Value) :
    Told first (trail.after (.enter args)) := by
  have values {source : Nat} (inside : source < trail.history.sources.length) :
      (trail.after (.enter args)).history.values source = trail.history.values source := by
    unfold History.values
    exact congrArg (·.getD []) (List.getElem?_append_left inside)
  have place {source : Nat} (inside : source < trail.history.sources.length) :
      (trail.after (.enter args)).history.place source = trail.history.place source := by
    unfold History.place
    rw [values inside]
    rfl
  have fresh : (trail.after (.enter args)).history.place trail.history.sources.length =
      .ofList args := by
    have own : (trail.after (.enter args)).history.values trail.history.sources.length = args := by
      simp [History.values, after, History.after]
    have unread : (trail.after (.enter args)).history.readsOf trail.history.sources.length = [] :=
      told.readsOf_eq_nil (Nat.le_refl _)
    rw [History.place, own, unread, List.length_nil, ite_self]
    rfl
  have unserved : (trail.after (.enter args)).history.unserved = trail.history.unserved := by
    refine List.filter_congr fun read mem => ?_
    rw [values (told.recorded read mem)]
  have length : (trail.after (.enter args)).history.sources.length =
      trail.history.sources.length + 1 := by
    simp [after, History.after]
  refine ⟨told.flags, told.top.trans (place told.outermost).symm, ?_, ?_, ?_, ?_, ?_, ?_, ?_, ?_⟩
  · change some (Cycle.ofList args) :: trail.calls.session.current :: trail.calls.saved = _
    rw [told.calls, ← fresh]
    change _ = _ :: (trail.history.active.map fun source =>
      some ((trail.after (.enter args)).history.place source)) ++ [none]
    congr 2
    exact List.map_congr_left fun source mem => by rw [place (told.numbered source mem).2]
  · rw [unserved]
    exact told.reader
  · intro source k read filled found
    have inside : source < trail.history.sources.length := by
      by_contra outside
      have nothing : (trail.after (.enter args)).history.readsOf source = [] :=
        told.readsOf_eq_nil (Nat.le_of_not_lt outside)
      rw [nothing] at found
      cases found
    rw [values inside] at filled ⊢
    exact told.given filled found
  · intro k read found
    rw [unserved] at found ⊢
    exact told.lines found
  · refine List.nodup_cons.mpr ⟨fun mem => ?_, told.distinct⟩
    exact Nat.lt_irrefl _ (told.numbered _ mem).2
  · intro source mem
    have outermost := told.outermost
    rcases List.mem_cons.mp mem with rfl | old
    · omega
    · have numbered := told.numbered source old
      omega
  · omega
  · intro read mem
    have recorded := told.recorded read mem
    omega

theorem restore (told : trail.Told first) : Told first (trail.after .restore) := by
  have stack := told.calls
  cases active : trail.history.active with
  | nil =>
    rw [active] at stack
    have saved : trail.calls.saved = [] := (List.cons.inj stack).2
    have same : trail.after .restore = trail := by
      unfold after Calls.after History.after
      rw [saved, active, List.tail_nil, ← active]
    rw [same]
    exact told
  | cons source rest =>
    rw [active] at stack
    have outer := (List.cons.inj stack).2
    cases saved : trail.calls.saved with
    | nil =>
      rw [saved] at outer
      cases rest <;> cases outer
    | cons previous others =>
      have put : trail.after .restore =
          ⟨⟨trail.calls.session.restore previous, others⟩,
            { trail.history with active := rest }⟩ := by
        unfold after Calls.after History.after
        rw [saved, active]
        rfl
      have distinct := told.distinct
      have numbered := told.numbered
      rw [active] at distinct numbered
      rw [put]
      refine ⟨told.flags, told.top, ?_, told.reader, told.given, told.lines,
        (List.nodup_cons.mp distinct).2, fun other mem => numbered other (by simp [mem]),
        told.outermost, told.recorded⟩
      rw [saved] at outer
      exact outer

theorem flag (told : trail.Told first) (flags : Flags) : Told first (trail.after (.flag flags)) :=
  ⟨rfl, told.top, told.calls, told.reader, told.given, told.lines, told.distinct, told.numbered,
    told.outermost, told.recorded⟩

theorem after (told : trail.Told first) (move : Move) : Told first (trail.after move) := by
  cases move with
  | take => exact told.take
  | pop count stack => exact told.pop count stack
  | enter args => exact told.enter args
  | restore => exact told.restore
  | flag flags => exact told.flag flags

theorem run (told : trail.Told first) (moves : List Move) : Told first (trail.run moves) := by
  induction moves generalizing trail with
  | nil => exact told
  | cons move moves ih => exact ih (told.after move)

end Told

theorem told_start (inputs : List Value) (flags : Flags) (reader : LineReader) :
    Told reader (start inputs flags reader) where
  flags := rfl
  top := by
    have unread : (start inputs flags reader).history.readsOf 0 = [] := rfl
    rw [History.place, unread, List.length_nil, ite_self]
    rfl
  calls := rfl
  reader := rfl
  given := by
    intro source k read _ found
    cases found
  lines := by
    intro k read found
    cases found
  distinct := List.nodup_nil
  numbered := by
    intro source mem
    cases mem
  outermost := Nat.one_pos
  recorded := by
    intro read mem
    cases mem

theorem Told.linesInTurn {lines : List String} (told : trail.Told (.scripted lines)) :
    trail.LinesInTurn lines := by
  intro k read found
  have inside := (List.getElem?_eq_some_iff.mp found).1
  rw [told.lines found, LineReader.readLine_asked_scripted, List.length_map,
    List.length_take_of_le (Nat.le_of_lt inside)]

theorem Told.oneRead (told : trail.Told first) : trail.OneRead (trail.after .take) where
  served := told.active_eq
  moved := trail.history.place_record _
  others source ne := trail.history.place_record_of_ne _ ne
  reader := by
    split
    · rename_i empty
      have next : trail.calls.session.active.next? = none := by
        rw [told.active_eq, Cycle.next?_eq_none_iff]
        exact empty
      change trail.calls.session.takeInput.2.reader = _
      rw [Session.takeInput_of_empty next]
    · rename_i filled
      obtain ⟨value, _, next⟩ := trail.history.next?_place filled
      rw [← told.active_eq] at next
      change trail.calls.session.takeInput.2.reader = _
      rw [Session.takeInput_of_next next, Session.withActive]
      split <;> rfl

/-- Input sources are read cyclically, each at its own pace. Whatever moves have been made, the sources
at hand and those put aside stand where the history of their own reads tells, so one that becomes
current again goes on where it stopped; a read is served by the outermost source if the flag says so or
no call is in progress, and else by that of the innermost call. It moves that source alone, and a line
is asked for exactly if that source has no values; what a scripted reader has is used line by line. -/
theorem sources_told_by_history (inputs : List Value) (flags : Flags) (reader : LineReader)
    (moves : List Move) :
    ((start inputs flags reader).run moves).Told reader ∧
      ((start inputs flags reader).run moves).OneRead
        (((start inputs flags reader).run moves).after .take) ∧
      ∀ lines, ((start inputs flags (.scripted lines)).run moves).LinesInTurn lines :=
  have told (reader : LineReader) := (told_start inputs flags reader).run moves
  ⟨told reader, (told reader).oneRead, fun lines => (told (.scripted lines)).linesInTurn⟩

/-- An interrupt at the terminal gives a zero, and the line behind it is read all the same. -/
example :
    ((start [] {} (.terminal fun k => if k = 1 then some "7" else none)).run
      [.take, .take]).history.reads.map Read.value = [.ofInt 0, .ofInt 7] := by
  cbv

end Input.Trail

end Terse

import Mathlib.Data.List.Forall2
import Mathlib.Data.List.Induction
import Terse.Number.Radix
import Terse.Proofs.Number.Digits

namespace Terse.Radix

/-- Digits of a number: all between zero and the base on the side of the number, and no zero in front
except for the number zero. -/
structure Represents (v base : Int) (ds : List Int) : Prop where
  value : toInt ds base = v
  nonempty : ds ≠ []
  above : 0 ≤ v → ∀ d ∈ ds, 0 ≤ d ∧ d < base
  below : v < 0 → ∀ d ∈ ds, -base < d ∧ d ≤ 0
  front : v ≠ 0 → ds.head? ≠ some 0
  zero : v = 0 → ds = [0]

def signed (v : Int) (d : Nat) : Int :=
  if v < 0 then -(d : Int) else d

theorem signed_natAbs (v : Int) : signed v v.natAbs = v := by
  unfold signed
  split <;> omega

theorem natAbs_signed (v : Int) (d : Nat) : (signed v d).natAbs = d := by
  unfold signed
  split <;> omega

theorem ofInt_of_le {base : Int} (two : 2 ≤ base) (v : Int) :
    ofInt v base = .ok ((digits base.toNat v.natAbs).map (signed v)) := by
  have large : ¬ base < 2 := by omega
  rw [ofInt, if_neg large]
  rfl

theorem toInt_append_singleton (ds : List Int) (d base : Int) :
    toInt (ds ++ [d]) base = toInt ds base * base + d := by
  simp [toInt]

theorem toInt_map_signed {base : Int} (natural : 0 ≤ base) (v : Int) (ds : List Nat) :
    toInt (ds.map (signed v)) base = signed v (valueOf base.toNat ds) := by
  induction ds using List.reverseRecOn with
  | nil =>
    unfold signed
    split <;> rfl
  | append_singleton ds d ih =>
    have cast : (base.toNat : Int) = base := Int.toNat_of_nonneg natural
    rw [List.map_append, List.map_singleton, toInt_append_singleton, ih, valueOf_append_singleton]
    unfold signed
    split
    · push_cast
      rw [cast, Int.neg_mul, Int.neg_add]
    · push_cast
      rw [cast]

theorem Represents.magnitudes {v base : Int} {ds : List Int} (represents : Represents v base ds) :
    (∀ d ∈ ds.map Int.natAbs, d < base.toNat) ∧ (ds.map Int.natAbs).map (signed v) = ds := by
  have each : ∀ d ∈ ds, d.natAbs < base.toNat ∧ (signed v ∘ Int.natAbs) d = id d := by
    intro d mem
    simp only [Function.comp_apply, signed, id_eq]
    by_cases negative : v < 0
    · have bounds := represents.below negative d mem
      rw [if_pos negative]
      omega
    · have bounds := represents.above (by omega) d mem
      rw [if_neg negative]
      omega
  constructor
  · intro d mem
    obtain ⟨e, inside, rfl⟩ := List.mem_map.mp mem
    exact (each e inside).1
  · rw [List.map_map, List.map_congr_left fun d mem => (each d mem).2, List.map_id]

theorem represents_digits {base : Int} (two : 2 ≤ base) (v : Int) :
    Represents v base ((digits base.toNat v.natAbs).map (signed v)) := by
  have two' : 2 ≤ base.toNat := by omega
  have each : ∀ d ∈ (digits base.toNat v.natAbs).map (signed v),
      ∃ e : Nat, d = signed v e ∧ (e : Int) < base := by
    intro d mem
    obtain ⟨e, inside, rfl⟩ := List.mem_map.mp mem
    have bound := lt_of_mem_digits two' inside
    exact ⟨e, rfl, by omega⟩
  constructor
  case value =>
    rw [toInt_map_signed (by omega), valueOf_digits two', signed_natAbs]
  case nonempty =>
    simpa using digits_ne_nil two' v.natAbs
  case above =>
    intro nonneg d mem
    obtain ⟨e, rfl, bound⟩ := each d mem
    unfold signed
    omega
  case below =>
    intro negative d mem
    obtain ⟨e, rfl, bound⟩ := each d mem
    unfold signed
    omega
  case front =>
    intro nonzero head
    rw [List.head?_map, Option.map_eq_some_iff] at head
    obtain ⟨e, first, zero⟩ := head
    have none : e = 0 := by
      unfold signed at zero
      omega
    exact head?_digits two' (Int.natAbs_pos.mpr nonzero) (none ▸ first)
  case zero =>
    rintro rfl
    rw [Int.natAbs_zero, digits_of_lt (by omega)]
    rfl

theorem Represents.eq_digits {v base : Int} {ds : List Int} (two : 2 ≤ base)
    (represents : Represents v base ds) : ds = (digits base.toNat v.natAbs).map (signed v) := by
  obtain ⟨small, restored⟩ := represents.magnitudes
  by_cases zero : v = 0
  · rw [represents.zero zero, (represents_digits two v).zero zero]
  · have magnitude : valueOf base.toNat (ds.map Int.natAbs) = v.natAbs := by
      have value := represents.value
      rw [← restored, toInt_map_signed (by omega)] at value
      rw [← natAbs_signed v (valueOf _ _), value]
    have front : (ds.map Int.natAbs).head? ≠ some 0 := by
      have first := represents.front zero
      simpa [List.head?_map] using first
    have nonempty : ds.map Int.natAbs ≠ [] := by simpa using represents.nonempty
    rw [← magnitude, digits_valueOf small, significant_of_head? nonempty front, restored]

/-- In a base of at least two every number has digits, and no other list represents it; so the digits
are found again from what any such list denotes. Smaller bases are refused. -/
theorem ofInt_unique (v base : Int) :
    (2 ≤ base → ∃ ds, ofInt v base = .ok ds ∧ ∀ es, Represents v base es ↔ es = ds) ∧
    (2 ≤ base → ∀ ds, Represents (toInt ds base) base ds → ofInt (toInt ds base) base = .ok ds) ∧
    (base < 2 → ∃ e, ofInt v base = .error e ∧ e.kind = .domain) := by
  refine ⟨fun two => ?_, fun two ds represents => ?_, fun small => ?_⟩
  · refine ⟨_, ofInt_of_le two v, fun es => ⟨Represents.eq_digits two, ?_⟩⟩
    rintro rfl
    exact represents_digits two v
  · rw [ofInt_of_le two, ← represents.eq_digits two]
  · refine ⟨.smallBase base, ?_, rfl⟩
    rw [ofInt, if_pos small]

section Words

variable {symbols : List Char} {alphabet : String} {ds : List Nat} {cs : List Char}

def Spelled (symbols : List Char) (ds : List Nat) (cs : List Char) : Prop :=
  List.Forall₂ (fun d c => symbols[d]? = some c) ds cs

def Counted (symbols : List Char) (cs : List Char) (ds : List Nat) : Prop :=
  List.Forall₂ (fun c d => symbols.idxOf? c = some d) cs ds

theorem exists_spelled (small : ∀ d ∈ ds, d < symbols.length) : ∃ cs, Spelled symbols ds cs := by
  induction ds with
  | nil => exact ⟨[], .nil⟩
  | cons d ds ih =>
    obtain ⟨cs, spelled⟩ := ih fun e mem => small e (List.mem_cons_of_mem d mem)
    have inside := small d List.mem_cons_self
    exact ⟨symbols[d] :: cs, .cons (List.getElem?_eq_getElem inside) spelled⟩

theorem exists_counted (known : ∀ c ∈ cs, c ∈ symbols) : ∃ ds, Counted symbols cs ds := by
  induction cs with
  | nil => exact ⟨[], .nil⟩
  | cons c cs ih =>
    obtain ⟨ds, counted⟩ := ih fun e mem => known e (List.mem_cons_of_mem c mem)
    cases found : symbols.idxOf? c with
    | none => exact absurd (known c List.mem_cons_self) (List.idxOf?_eq_none_iff.mp found)
    | some d => exact ⟨d :: ds, .cons found counted⟩

theorem getElem?_of_idxOf? {c : Char} {d : Nat} (found : symbols.idxOf? c = some d) :
    symbols[d]? = some c := by
  obtain ⟨inside, same, _⟩ := List.idxOf?_eq_some_iff.mp found
  rw [List.getElem?_eq_getElem inside, same]

theorem idxOf?_of_getElem? (distinct : symbols.Nodup) {c : Char} {d : Nat}
    (there : symbols[d]? = some c) : symbols.idxOf? c = some d := by
  obtain ⟨inside, rfl⟩ := List.getElem?_eq_some_iff.mp there
  refine List.idxOf?_eq_some_iff.mpr ⟨inside, rfl, fun i before same => ?_⟩
  exact List.pairwise_iff_getElem.mp distinct i d (by omega) inside before same

theorem Counted.spelled (counted : Counted symbols cs ds) : Spelled symbols ds cs :=
  .flip (counted.imp fun _ _ => getElem?_of_idxOf?)

theorem Spelled.counted (distinct : symbols.Nodup) (spelled : Spelled symbols ds cs) :
    Counted symbols cs ds :=
  .flip (spelled.imp fun _ _ => idxOf?_of_getElem? distinct)

theorem Spelled.small (spelled : Spelled symbols ds cs) : ∀ d ∈ ds, d < symbols.length := by
  induction spelled with
  | nil => simp
  | cons there _ ih =>
    rw [List.forall_mem_cons]
    exact ⟨(List.getElem?_eq_some_iff.mp there).1, ih⟩

theorem decode_of_counted (nonempty : alphabet.toList ≠ [])
    (counted : Counted alphabet.toList cs ds) :
    decode (String.ofList cs) alphabet = .ok (valueOf alphabet.toList.length ds) := by
  rw [decode, if_neg (by simpa using nonempty), String.toList_ofList, valueOf]
  generalize 0 = acc
  induction counted generalizing acc with
  | nil => rfl
  | cons found _ ih =>
    rw [List.foldlM_cons, List.foldl_cons, found]
    exact ih _

theorem mapM_of_spelled (spelled : Spelled symbols ds cs) :
    ds.mapM (symbolOf symbols) = .ok cs := by
  induction spelled with
  | nil => rfl
  | cons there _ ih =>
    rw [List.mapM_cons, ih, symbolOf, there]
    rfl

/-- Zero can be written over any alphabet, and it is all that can over one symbol. -/
theorem encode_of_spelled {n : Nat} (nonempty : alphabet.toList ≠ [])
    (room : alphabet.toList.length = 1 → n = 0)
    (spelled : Spelled alphabet.toList (digits alphabet.toList.length n) cs) :
    encode n alphabet = .ok (String.ofList cs) := by
  have natural : ¬ (n : Int) < 0 := by omega
  rw [encode, if_neg natural, if_neg (by simpa using nonempty), Int.natAbs_natCast]
  split
  case isTrue single =>
    have zero := room single
    rw [single, zero, digits_of_lt (by decide)] at spelled
    obtain ⟨symbol, only⟩ := List.length_eq_one_iff.mp single
    rw [only] at spelled
    cases spelled with
    | cons there rest =>
      cases rest
      cases there
      rw [zero, ← only, String.ofList_toList]
      rfl
  case isFalse =>
    rw [mapM_of_spelled spelled]
    rfl

theorem Counted.significant {first : Char} (head : symbols.head? = some first)
    (counted : Counted symbols cs ds) :
    Spelled symbols (significant 0 ds) (significant first cs) := by
  have there : symbols[0]? = some first := by rw [← List.head?_eq_getElem?, head]
  have starts : ∀ {c d}, symbols.idxOf? c = some d → (d = 0 ↔ c = first) := by
    intro c d found
    constructor
    · rintro rfl
      exact Option.some.inj ((getElem?_of_idxOf? found).symm.trans there)
    · rintro rfl
      obtain ⟨_, _, least⟩ := List.idxOf?_eq_some_iff.mp found
      obtain ⟨inside, same⟩ := List.getElem?_eq_some_iff.mp there
      by_contra later
      exact least 0 (Nat.pos_of_ne_zero later) same
  induction counted with
  | nil => exact .cons there .nil
  | @cons c d cs ds found rest ih =>
    by_cases zero : d = 0
    · have same := (starts found).mp zero
      rw [Terse.significant, Terse.significant, List.dropWhile_cons_of_pos (by simpa using zero),
        List.dropWhile_cons_of_pos (by simpa using same)]
      exact ih
    · have other := mt (starts found).mpr zero
      rw [significant_of_head? (by simp) (by simpa using zero),
        significant_of_head? (by simp) (by simpa using other)]
      exact Counted.spelled (.cons found rest)

theorem encode_decode {first : Char} {word : String} (head : alphabet.toList.head? = some first)
    (known : ∀ c ∈ word.toList, c ∈ alphabet.toList) :
    ∃ n, decode word alphabet = .ok n ∧
      encode n alphabet = .ok (String.ofList (significant first word.toList)) := by
  have nonempty : alphabet.toList ≠ [] := by
    intro empty
    rw [empty] at head
    cases head
  obtain ⟨ds, counted⟩ := exists_counted known
  have small := counted.spelled.small
  have read := decode_of_counted nonempty counted
  rw [String.ofList_toList] at read
  have spelled := counted.significant head
  rw [← digits_valueOf small] at spelled
  refine ⟨_, read, encode_of_spelled nonempty (fun single => ?_) spelled⟩
  -- With one symbol every digit is zero.
  have nothing : ds.dropWhile (· = 0) = [] := by
    rw [List.dropWhile_eq_nil_iff]
    intro d mem
    have bound := small d mem
    rw [decide_eq_true_eq]
    omega
  rw [← valueOf_dropWhile_zero, nothing]
  rfl

theorem exists_encode {n : Nat} (two : 2 ≤ alphabet.toList.length) :
    ∃ cs, Spelled alphabet.toList (digits alphabet.toList.length n) cs ∧
      encode n alphabet = .ok (String.ofList cs) := by
  have nonempty : alphabet.toList ≠ [] := List.ne_nil_of_length_pos (by omega)
  obtain ⟨cs, spelled⟩ := exists_spelled fun d => lt_of_mem_digits (n := n) two
  exact ⟨cs, spelled, encode_of_spelled nonempty (by omega) spelled⟩

/-- A symbol that occurs again is counted at its first place, so the later place is lost. -/
theorem decode_encode_iff (two : 2 ≤ alphabet.toList.length) :
    (∀ n : Nat, ∃ word, encode n alphabet = .ok word ∧ decode word alphabet = .ok n) ↔
      alphabet.toList.Nodup := by
  have nonempty : alphabet.toList ≠ [] := List.ne_nil_of_length_pos (by omega)
  constructor
  · intro restored
    refine List.pairwise_iff_getElem.mpr fun i j _ inside before same => ?_
    obtain ⟨word, written, read⟩ := restored j
    have spelled : Spelled alphabet.toList (digits alphabet.toList.length j)
        [alphabet.toList[j]] := by
      rw [digits_of_lt inside]
      exact .cons (List.getElem?_eq_getElem inside) .nil
    rw [encode_of_spelled nonempty (by omega) spelled] at written
    obtain rfl := Except.ok.inj written
    obtain ⟨ds, counted⟩ : ∃ ds, Counted alphabet.toList [alphabet.toList[j]] ds :=
      exists_counted (List.forall_mem_singleton.mpr (List.getElem_mem inside))
    rw [decode_of_counted nonempty counted] at read
    cases counted with
    | cons found rest =>
      cases rest
      simp only [valueOf, List.foldl_cons, List.foldl_nil, Nat.zero_mul, Nat.zero_add,
        Except.ok.injEq] at read
      subst read
      obtain ⟨_, _, least⟩ := List.idxOf?_eq_some_iff.mp found
      exact least i before same
  · intro distinct n
    obtain ⟨cs, spelled, written⟩ := exists_encode (n := n) two
    refine ⟨_, written, ?_⟩
    rw [decode_of_counted nonempty (spelled.counted distinct), valueOf_digits two]

theorem encode_error_iff (v : Int) (alphabet : String) (e : Failure) :
    encode v alphabet = .error e ↔
      (v < 0 ∧ e = .negativeValue v) ∨
      (0 ≤ v ∧ alphabet.toList = [] ∧ e = .emptyAlphabet) ∨
      (0 < v ∧ alphabet.toList.length = 1 ∧ e = .singleSymbol v) := by
  by_cases negative : v < 0
  · have refused : encode v alphabet = .error (.negativeValue v) := by
      rw [encode, if_pos negative]
    rw [refused, Except.error.injEq]
    grind
  by_cases empty : alphabet.toList = []
  · have refused : encode v alphabet = .error .emptyAlphabet := by
      rw [encode, if_neg negative, if_pos (by simpa using empty)]
    rw [refused, Except.error.injEq]
    grind
  by_cases single : alphabet.toList.length = 1
  · have cases : encode v alphabet = if v = 0 then .ok alphabet else .error (.singleSymbol v) := by
      rw [encode, if_neg negative, if_neg (by simpa using empty), if_pos single]
    rw [cases]
    grind
  · obtain ⟨n, rfl⟩ := Int.eq_ofNat_of_zero_le (Int.not_lt.mp negative)
    have positive := List.length_pos_iff.mpr empty
    obtain ⟨cs, _, written⟩ := exists_encode (n := n) (by omega : 2 ≤ alphabet.toList.length)
    rw [written]
    grind

end Words

/-- Over at least two symbols every natural number is read back from its word exactly if the symbols
are distinct. Over any symbols a word is written back without first symbols in front, a single one
where nothing else stood. Only negative numbers, the empty alphabet, and positive numbers over one
symbol are refused, and no digit is ever out of range. -/
theorem words_round_trip (alphabet : String) :
    (2 ≤ alphabet.toList.length →
      ((∀ n : Nat, ∃ word, encode n alphabet = .ok word ∧ decode word alphabet = .ok n) ↔
        alphabet.toList.Nodup)) ∧
    (∀ first word, alphabet.toList.head? = some first →
      (∀ c ∈ word.toList, c ∈ alphabet.toList) →
      ∃ n, decode word alphabet = .ok n ∧
        encode n alphabet = .ok (String.ofList (significant first word.toList))) ∧
    (∀ v e, encode v alphabet = .error e ↔
      (v < 0 ∧ e = .negativeValue v) ∨
      (0 ≤ v ∧ alphabet.toList = [] ∧ e = .emptyAlphabet) ∨
      (0 < v ∧ alphabet.toList.length = 1 ∧ e = .singleSymbol v)) ∧
    (∀ v digit, encode v alphabet ≠ .error (.digitOutOfRange digit)) := by
  refine ⟨decode_encode_iff, fun first word => encode_decode, fun v => encode_error_iff v alphabet,
    fun v digit refused => ?_⟩
  rcases (encode_error_iff v alphabet _).mp refused with ⟨_, other⟩ | ⟨_, _, other⟩ | ⟨_, _, other⟩
  all_goals cases other

end Terse.Radix

import ParserExample.Driver
import ParserExample.Printer.Reparse

/-!
# Arguments from the environment

`readArgs` accepts an environment variable if and only if it holds an integer:
spaces, a sign and digits, with nothing behind them. What `%ld` prints is such a
text, and stands for the value that was printed. A number that is out of range
is not an error here, as it is in the code of a program; it is brought to the
nearest `long`.
-/

namespace ParserExample

open Library

inductive SignText : Bytes → Bool → Prop
  | none : SignText [] false
  | plus : SignText [byte '+'] false
  | minus : SignText [byte '-'] true

def LongText (str : Bytes) (value : Int) : Prop :=
  ∃ spaces sign negative digits, str = spaces ++ (sign ++ digits) ∧
    (∀ sym ∈ spaces, isspace sym = true) ∧ SignText sign negative ∧
    digits ≠ [] ∧ (∀ sym ∈ digits, isDigit sym = true) ∧
    value = if negative then -(decimal digits : Int) else decimal digits

def HasValue (getenv : Bytes → Option Bytes) (name : Bytes) (value : Long) : Prop :=
  ∃ str n, getenv name = some str ∧ LongText str n ∧ value = saturate n

-- ---------------------------------------------------------------------------
-- `strtol`
-- ---------------------------------------------------------------------------

section
variable {str spaces sign digits : Bytes} {negative : Bool} {value : Long}

theorem readSign_cases (str : Bytes) :
    ∃ sign negative rest, str = sign ++ rest ∧ SignText sign negative ∧
      readSign str = (negative, rest) := by
  cases str with
  | nil => exact ⟨[], false, [], rfl, .none, rfl⟩
  | cons sym rest =>
    by_cases hminus : sym = byte '-'
    · exact ⟨[byte '-'], true, rest, by rw [hminus]; rfl, .minus, by simp [readSign, hminus]⟩
    by_cases hplus : sym = byte '+'
    · refine ⟨[byte '+'], false, rest, by rw [hplus]; rfl, .plus, ?_⟩
      rw [readSign, if_neg hminus, if_pos hplus]
    · refine ⟨[], false, sym :: rest, rfl, .none, ?_⟩
      rw [readSign, if_neg hminus, if_neg hplus]

theorem readSign_append (h : SignText sign negative) (hd : ∀ sym ∈ digits, isDigit sym = true) :
    readSign (sign ++ digits) = (negative, digits) := by
  cases h with
  | none =>
    cases digits with
    | nil => rfl
    | cons sym rest =>
      have hsym : isDigit sym = true := hd sym (by simp)
      have hminus : sym ≠ byte '-' := by
        rintro rfl
        exact absurd hsym (by decide)
      have hplus : sym ≠ byte '+' := by
        rintro rfl
        exact absurd hsym (by decide)
      rw [List.nil_append, readSign, if_neg hminus, if_neg hplus]
  | plus => rfl
  | minus => rfl

theorem isspace_head (h : SignText sign negative) (hne : digits ≠ [])
    (hd : ∀ sym ∈ digits, isDigit sym = true) :
    (sign ++ digits).dropWhile isspace = sign ++ digits := by
  obtain ⟨sym, rest, rfl⟩ := List.exists_cons_of_ne_nil hne
  cases h with
  | none =>
    have htail : isIdentTail sym = true := by simp [isIdentTail, hd sym]
    obtain ⟨-, -, hspace, -⟩ := charClasses sym htail
    exact List.dropWhile_cons_of_neg (by simp [hspace])
  | plus => rfl
  | minus => rfl

/-- The whole of a string is converted if and only if it is the text of an integer. -/
theorem strtol_iff : (str ≠ [] ∧ strtol str = (value, [])) ↔
    ∃ n, LongText str n ∧ value = saturate n := by
  constructor
  · rintro ⟨hne, h⟩
    obtain ⟨sign, negative, rest, hrest, hs, hread⟩ := readSign_cases (str.dropWhile isspace)
    simp only [strtol, hread] at h
    split at h
    · exact absurd (congrArg Prod.snd h) hne
    · next hdigits =>
      obtain ⟨hvalue, hend⟩ := Prod.mk.inj h
      have hall : rest.takeWhile isDigit = rest := by
        simpa [hend] using List.takeWhile_append_dropWhile (p := isDigit) (l := rest)
      rw [hall] at hdigits hvalue
      refine ⟨_, ⟨str.takeWhile isspace, sign, negative, rest, ?_, ?_, hs, hdigits, ?_, rfl⟩,
        hvalue.symm⟩
      · rw [← hrest, List.takeWhile_append_dropWhile]
      · exact fun sym hsym => List.mem_takeWhile_imp hsym
      · rw [← hall]
        exact fun sym hsym => List.mem_takeWhile_imp hsym
  · rintro ⟨_, ⟨spaces, sign, negative, digits, rfl, hspaces, hs, hne, hd, rfl⟩, rfl⟩
    refine ⟨by simp [hne], ?_⟩
    rw [strtol, List.dropWhile_append_of_pos hspaces, isspace_head hs hne hd, readSign_append hs hd]
    simp only [List.takeWhile_eq_self_iff.mpr hd, if_neg hne, List.dropWhile_eq_nil_iff.mpr hd]

theorem not_longText_iff : (str = [] ∨ (strtol str).2 ≠ []) ↔ ¬ ∃ n, LongText str n := by
  have h := @strtol_iff str (strtol str).1
  rw [← not_iff_not, not_not, not_or, not_ne_iff]
  constructor
  · rintro ⟨hne, hend⟩
    obtain ⟨n, ht, -⟩ := h.mp ⟨hne, Prod.ext rfl hend⟩
    exact ⟨n, ht⟩
  · rintro ⟨n, ht⟩
    obtain ⟨hne, hvalue⟩ := strtol_iff.mpr ⟨n, ht, rfl⟩
    exact ⟨hne, congrArg Prod.snd hvalue⟩

theorem saturate_toInt (value : Long) : saturate value.toInt = value := by
  have hlo := value.le_toInt
  have hhi := value.toInt_lt
  unfold saturate maxLiteral
  rw [if_neg (by omega), if_neg (by omega), Int64.ofInt_toInt]

theorem longText_formatLong (value : Long) : LongText (formatLong value) value.toInt := by
  have hdigits : ∀ sym ∈ formatNat value.toInt.natAbs, isDigit sym = true :=
    fun sym h => (isDigit_of_mem_formatNat h).1
  rw [formatLong_eq]
  by_cases hneg : value.toInt < 0
  · refine ⟨[], _, true, _, rfl, nofun, ?_, formatNat_ne_nil _, hdigits, ?_⟩
    · rw [if_pos hneg]
      exact .minus
    · rw [if_pos rfl, decimal_formatNat]
      omega
  · refine ⟨[], _, false, _, rfl, nofun, ?_, formatNat_ne_nil _, hdigits, ?_⟩
    · rw [if_neg hneg]
      exact .none
    · rw [if_neg (by decide), decimal_formatNat]
      omega

end

-- ---------------------------------------------------------------------------
-- The loop over the parameters
-- ---------------------------------------------------------------------------

/-- The message about a variable that does not hold an integer. -/
inductive Complaint (getenv : Bytes → Option Bytes) (name : Bytes) : Bytes → Prop
  | notSet (h : getenv name = none) :
    Complaint getenv name (ascii "Error: Environment variable not set: " ++ name ++ [newline])
  | notLong {str} (h : getenv name = some str) (ht : ¬ ∃ n, LongText str n) :
    Complaint getenv name (ascii "Error: Environment variable is not a long integer: " ++ name ++
      ascii "=" ++ str ++ [newline])

section
variable {getenv : Bytes → Option Bytes} {name message message' : Bytes} {value value' : Long}
  {names front back : List Bytes} {args : List Long}

theorem HasValue.unique (h : HasValue getenv name value) (h' : HasValue getenv name value') :
    value = value' := by
  obtain ⟨str, n, hget, ht, hv⟩ := h
  obtain ⟨str', n', hget', ht', hv'⟩ := h'
  obtain rfl := Option.some.inj (hget.symm.trans hget')
  have heq := (strtol_iff.mpr ⟨n, ht, hv⟩).2.symm.trans (strtol_iff.mpr ⟨n', ht', hv'⟩).2
  exact congrArg Prod.fst heq

theorem Complaint.unique (h : Complaint getenv name message)
    (h' : Complaint getenv name message') : message = message' := by
  cases h with
  | notSet hnone =>
    cases h' with
    | notSet => rfl
    | notLong hsome => rw [hnone] at hsome; cases hsome
  | notLong hsome =>
    cases h' with
    | notSet hnone => rw [hnone] at hsome; cases hsome
    | notLong hsome' =>
      obtain rfl := Option.some.inj (hsome.symm.trans hsome')
      rfl

theorem Complaint.not_hasValue (h : Complaint getenv name message) :
    ¬ ∃ value, HasValue getenv name value := by
  rintro ⟨value, str, n, hget, ht, -⟩
  cases h with
  | notSet hnone => rw [hget] at hnone; cases hnone
  | notLong hsome hnot =>
    obtain rfl := Option.some.inj (hget.symm.trans hsome)
    exact hnot ⟨n, ht⟩

theorem Complaint.ne_nil (h : Complaint getenv name message) : message ≠ [] := by
  cases h <;> simp

theorem readArgs_cons (getenv : Bytes → Option Bytes) (name : Bytes) (names : List Bytes) :
    (∃ value, HasValue getenv name value ∧
      readArgs getenv (name :: names) = (value :: ·) <$> readArgs getenv names) ∨
    ∃ message, Complaint getenv name message ∧
      readArgs getenv (name :: names) = .error message := by
  cases hget : getenv name with
  | none =>
    right
    refine ⟨_, .notSet hget, ?_⟩
    simp only [readArgs, hget]
    rfl
  | some str =>
    simp only [readArgs, hget]
    by_cases hbad : str = [] ∨ (strtol str).2 ≠ []
    · right
      refine ⟨_, .notLong hget (not_longText_iff.mp hbad), ?_⟩
      rw [if_pos hbad]
      rfl
    · left
      obtain ⟨hne, hend⟩ := not_or.mp hbad
      obtain ⟨n, ht, hvalue⟩ := strtol_iff.mp ⟨hne, Prod.ext rfl (not_ne_iff.mp hend)⟩
      refine ⟨_, ⟨str, n, hget, ht, hvalue⟩, ?_⟩
      rw [if_neg hbad]
      cases readArgs getenv names <;> rfl

theorem readArgs_cases (getenv : Bytes → Option Bytes) (names : List Bytes) :
    (∃ args, readArgs getenv names = .ok args ∧ List.Forall₂ (HasValue getenv) names args) ∨
    ∃ front name back message, names = front ++ name :: back ∧
      (∀ n ∈ front, ∃ value, HasValue getenv n value) ∧ Complaint getenv name message ∧
      readArgs getenv names = .error message := by
  induction names with
  | nil => exact .inl ⟨[], rfl, .nil⟩
  | cons name names ih =>
    rcases readArgs_cons getenv name names with ⟨value, hv, hread⟩ | ⟨message, hc, hread⟩
    · rcases ih with ⟨args, hargs, hall⟩ | ⟨front, bad, back, message, rfl, hfront, hc, herr⟩
      · exact .inl ⟨value :: args, by rw [hread, hargs]; rfl, .cons hv hall⟩
      · refine .inr ⟨name :: front, bad, back, message, rfl, ?_, hc, by rw [hread, herr]; rfl⟩
        exact List.forall_mem_cons.mpr ⟨⟨value, hv⟩, hfront⟩
    · exact .inr ⟨[], name, names, message, rfl, nofun, hc, hread⟩

theorem readArgs_values (h : List.Forall₂ (HasValue getenv) names args) :
    readArgs getenv names = .ok args := by
  induction h with
  | nil => rfl
  | @cons name value names args hv _ ih =>
    rcases readArgs_cons getenv name names with ⟨value', hv', hread⟩ | ⟨message, hc, -⟩
    · rw [hread, ih, hv.unique hv']
      rfl
    · exact absurd ⟨value, hv⟩ hc.not_hasValue

theorem readArgs_complaint (hfront : ∀ n ∈ front, ∃ value, HasValue getenv n value)
    (hc : Complaint getenv name message) :
    readArgs getenv (front ++ name :: back) = .error message := by
  induction front with
  | nil =>
    rcases readArgs_cons getenv name back with ⟨value, hv, -⟩ | ⟨message', hc', hread⟩
    · exact absurd ⟨value, hv⟩ hc.not_hasValue
    · rw [List.nil_append, hread, hc.unique hc']
  | cons n front ih =>
    obtain ⟨hn, hfront⟩ := List.forall_mem_cons.mp hfront
    rcases readArgs_cons getenv n (front ++ name :: back) with ⟨value, -, hread⟩ | ⟨_, hc', -⟩
    · rw [List.cons_append, hread, ih hfront]
      rfl
    · exact absurd hn hc'.not_hasValue

theorem hasValue_of_readArgs (h : readArgs getenv names = .ok args) :
    List.Forall₂ (HasValue getenv) names args := by
  rcases readArgs_cases getenv names with ⟨args', hargs, hall⟩ | ⟨_, _, _, _, -, -, -, herr⟩
  · obtain rfl := Except.ok.inj (h.symm.trans hargs)
    exact hall
  · rw [h] at herr
    cases herr

/-- The parameters get the values of their variables. The message is about the
first of them whose variable is not set or does not hold an integer. -/
theorem readArgs_iff (getenv : Bytes → Option Bytes) (names : List Bytes) :
    (∀ args, readArgs getenv names = .ok args ↔ List.Forall₂ (HasValue getenv) names args) ∧
    ∀ message, readArgs getenv names = .error message ↔
      ∃ front name back, names = front ++ name :: back ∧
        (∀ n ∈ front, ∃ value, HasValue getenv n value) ∧ Complaint getenv name message := by
  refine ⟨fun args => ⟨hasValue_of_readArgs, readArgs_values⟩, fun message => ⟨fun h => ?_, ?_⟩⟩
  · rcases readArgs_cases getenv names with
      ⟨args', hargs, -⟩ | ⟨front, name, back, message', hnames, hfront, hc, herr⟩
    · rw [h] at hargs
      cases hargs
    · obtain rfl := Except.error.inj (h.symm.trans herr)
      exact ⟨front, name, back, hnames, hfront, hc⟩
  · rintro ⟨front, name, back, rfl, hfront, hc⟩
    exact readArgs_complaint hfront hc

/-- What `%ld` prints of a `long` is read back from the environment. -/
theorem readArgs_formatLong
    (h : List.Forall₂ (fun name value => getenv name = some (formatLong value)) names args) :
    readArgs getenv names = .ok args :=
  readArgs_values <| h.imp fun _ value hget =>
    ⟨_, _, hget, longText_formatLong value, (saturate_toInt value).symm⟩

theorem readArgs_formatLong_min :
    readArgs (fun name => if name = ascii "a" then some (ascii "-9223372036854775808") else
      some (ascii "7")) [ascii "a", ascii "b"] = .ok [longMin, 7] :=
  readArgs_formatLong (.cons (by decide +kernel) (.cons (by decide +kernel) .nil))

end

end ParserExample

import Mathlib

/-!
# Parsing of data sizes and durations

`parse_is_data_size` and `parse_is_duration` of `parse.c`. A string is the list of its characters
before the terminator. The digits are read by one loop, which gives up as soon as the number
exceeds the limit (`digits_eq`), and the unit is looked up after the blanks. Both functions succeed
exactly on the texts of their grammars whose value is within the limit, and leave the output alone
otherwise (`parse_units`).
-/

namespace Charmos.Parse

open List Option Nat

/-- `UINT64_MAX`. -/
def uint64Max : ℕ := 2 ^ 64 - 1

/-- `TIME_NS_MAX`. -/
def timeNsMax : ℕ := uint64Max

def isBlank (c : Char) : Bool := c = ' ' || c = '\t'

def isDigit (c : Char) : Bool := '0' ≤ c && c ≤ '9'

/-- The value of a digit. -/
def digitVal (c : Char) : ℕ := c.toNat - '0'.toNat

/-- The loop over the digits of a number, with the rest of the string; none on an overflow. -/
def digits (max : ℕ) : ℕ → List Char → Option (ℕ × List Char)
  | value, [] => some (value, [])
  | value, c :: str =>
    if isDigit c then
      if value > (max - digitVal c) / 10 then none
      else digits max ((value * 10 + digitVal c) % 2 ^ 64) str
    else some (value, c :: str)

/-- The `switch` on the unit: its multiplier, whether it is a prefix, and the rest. -/
def unitPrefix : List Char → Option (ℕ × Bool × List Char)
  | [] => some (1, false, [])
  | c :: str =>
    if c = 'K' ∨ c = 'k' then some (2 ^ 10, true, str)
    else if c = 'M' ∨ c = 'm' then some (2 ^ 20, true, str)
    else if c = 'G' ∨ c = 'g' then some (2 ^ 30, true, str)
    else if c = 'T' ∨ c = 't' then some (2 ^ 40, true, str)
    else if c = 'B' ∨ c = 'b' then some (1, false, str)
    else none

/-- What may follow a prefix. -/
def unitSuffix : List Char → Option (List Char)
  | [] => some []
  | c :: str =>
    if c = 'i' ∨ c = 'I' then
      match str with
      | [] => none
      | d :: str => if d = 'b' ∨ d = 'B' then some str else none
    else if c = 'b' ∨ c = 'B' then some str
    else some (c :: str)

/-- `parse_is_data_size`; `out` is the cell that the second argument points to, if any. -/
def parseIsDataSize (str : List Char) (out : Option ℕ) : Bool × Option ℕ :=
  let str := str.dropWhile isBlank
  -- an empty string fails this test too, as the first one of the source
  if ¬ (str.head?.any isDigit) then (false, out)
  else
    match digits uint64Max 0 str with
    | none => (false, out)
    | some (value, str) =>
      match unitPrefix (str.dropWhile isBlank) with
      | none => (false, out)
      | some (multiplier, hasPrefix, str) =>
        match if hasPrefix then unitSuffix str else some str with
        | none => (false, out)
        | some str =>
          if str.dropWhile isBlank ≠ [] then (false, out)
          else
            let result := value * multiplier % 2 ^ 64
            if multiplier > 1 ∧ result / multiplier ≠ value then (false, out)
            else (true, out.map fun _ => result)

def tolower (c : Char) : ℕ := if 'A' ≤ c ∧ c ≤ 'Z' then c.toNat ||| 0x20 else c.toNat

/-- `strncasecmp`; the character after the last is zero. -/
def strncasecmp : List Char → List Char → ℕ → ℤ
  | _, _, 0 => 0
  | c :: s, d :: t, n + 1 =>
    if (tolower c : ℤ) - tolower d ≠ 0 then (tolower c : ℤ) - tolower d else strncasecmp s t n
  | s, t, _ => ((s.head?.elim 0 tolower : ℕ) : ℤ) - (t.head?.elim 0 tolower : ℕ)

/-- The names of the units of time, in the order of the tests, and their multipliers. -/
def timeUnits : List (String × ℕ) :=
  [("", 1), ("ns", 1), ("us", 1000), ("ms", 1000000),
    ("s", 1000000000), ("sec", 1000000000), ("secs", 1000000000), ("second", 1000000000),
    ("seconds", 1000000000),
    ("m", 60 * 1000000000), ("min", 60 * 1000000000), ("mins", 60 * 1000000000),
    ("minute", 60 * 1000000000), ("minutes", 60 * 1000000000),
    ("h", 3600 * 1000000000), ("hr", 3600 * 1000000000), ("hrs", 3600 * 1000000000),
    ("hour", 3600 * 1000000000), ("hours", 3600 * 1000000000),
    ("d", 86400 * 1000000000), ("day", 86400 * 1000000000), ("days", 86400 * 1000000000)]

/-- `parse_is_duration`. -/
def parseIsDuration (str : List Char) (out : Option ℕ) : Bool × Option ℕ :=
  let str := str.dropWhile isBlank
  if ¬ (str.head?.any isDigit) then (false, out)
  else
    match digits timeNsMax 0 str with
    | none => (false, out)
    | some (value, str) =>
      let unitStart := str.dropWhile isBlank
      let unitLen := (unitStart.takeWhile (!isBlank ·)).length
      if (unitStart.drop unitLen).dropWhile isBlank ≠ [] then (false, out)
      else
        match timeUnits.find? fun u =>
            unitLen = u.1.length ∧ strncasecmp unitStart u.1.toList unitLen = 0 with
        | none => (false, out)
        | some (_, multiplier) =>
          if multiplier > 0 ∧ value > timeNsMax / multiplier then (false, out)
          else (true, out.map fun _ => value * multiplier % 2 ^ 64)

/-! ### The grammar -/

/-- The number that the digits write, after those already read. -/
def decimal (value : ℕ) (ds : List Char) : ℕ := ds.foldl (fun v c => v * 10 + digitVal c) value

/-- The names of the units of data. -/
def dataUnits : List (String × ℕ) :=
  [("", 1), ("b", 1), ("k", 2 ^ 10), ("kb", 2 ^ 10), ("kib", 2 ^ 10),
    ("m", 2 ^ 20), ("mb", 2 ^ 20), ("mib", 2 ^ 20), ("g", 2 ^ 30), ("gb", 2 ^ 30), ("gib", 2 ^ 30),
    ("t", 2 ^ 40), ("tb", 2 ^ 40), ("tib", 2 ^ 40)]

/-- The word in any case, and blanks. -/
def Spells (word str : List Char) : Prop :=
  ∃ u b, str = u ++ b ∧ u.map tolower = word.map tolower ∧ ∀ c ∈ b, isBlank c = true

/-- A unit of the table, and blanks. -/
def UnitText (units : List (String × ℕ)) (str : List Char) (unit : ℕ) : Prop :=
  ∃ name, (name, unit) ∈ units ∧ Spells name.toList str

/-- Blanks, a decimal number, blanks, a unit of the table and blanks. -/
def Denotes (units : List (String × ℕ)) (str : List Char) (number unit : ℕ) : Prop :=
  ∃ b₁ ds b₂ rest, str = b₁ ++ ds ++ b₂ ++ rest ∧ (∀ c ∈ b₁ ++ b₂, isBlank c = true) ∧ ds ≠ [] ∧
    (∀ c ∈ ds, isDigit c = true) ∧ decimal 0 ds = number ∧ UnitText units rest unit

variable {units : List (String × ℕ)} {str : List Char} {c : Char} {max value unit : ℕ}

theorem le_decimal (value : ℕ) (ds : List Char) : value ≤ decimal value ds := by
  induction ds generalizing value with
  | nil => exact le_rfl
  | cons c ds ih =>
    have h := ih (value * 10 + digitVal c)
    simp only [decimal, foldl_cons] at h ⊢
    omega

theorem digitVal_le (h : isDigit c = true) : digitVal c ≤ 9 := by
  simp only [isDigit, Bool.and_eq_true, decide_eq_true_eq] at h
  have h9 : c.toNat ≤ '9'.toNat := h.2
  simp only [digitVal, show '0'.toNat = 48 from rfl]
  simp only [show '9'.toNat = 57 from rfl] at h9
  omega

/-- The loop reads the digits at the front of the string, if their number is within the limit. -/
theorem digits_eq (h9 : 9 ≤ max) (hmax : max < 2 ^ 64) (hv : value ≤ max) :
    digits max value str = if decimal value (str.takeWhile isDigit) ≤ max then
      some (decimal value (str.takeWhile isDigit), str.dropWhile isDigit) else none := by
  induction str generalizing value with
  | nil => simp [digits, decimal, hv]
  | cons c str ih =>
    by_cases hc : isDigit c = true
    · have hd := digitVal_le hc
      have hstep : decimal value ((c :: str).takeWhile isDigit) =
          decimal (value * 10 + digitVal c) (str.takeWhile isDigit) := by
        simp [decimal, hc]
      rw [digits, if_pos hc, hstep, dropWhile_cons_of_pos hc]
      by_cases hover : value > (max - digitVal c) / 10
      · have := le_decimal (value * 10 + digitVal c) (str.takeWhile isDigit)
        rw [if_pos hover, if_neg (by omega)]
      · rw [if_neg hover, mod_eq_of_lt (by omega), ih (by omega)]
    · simp [digits, decimal, hc, hv]

/-- Neither a blank nor a digit folds to a letter. -/
theorem not_blank_digit (h : 97 ≤ tolower c) : isBlank c = false ∧ isDigit c = false := by
  refine ⟨?_, ?_⟩
  · by_contra hb
    simp only [isBlank, Bool.not_eq_false, Bool.or_eq_true, decide_eq_true_eq] at hb
    rcases hb with rfl | rfl <;> revert h <;> decide
  by_contra hd
  simp only [isDigit, Bool.not_eq_false, Bool.and_eq_true, decide_eq_true_eq] at hd
  have h9 : c.toNat ≤ 57 := hd.2
  have hup : ¬ ('A' ≤ c ∧ c ≤ 'Z') := fun hc => absurd (show 65 ≤ c.toNat from hc.1) (by omega)
  rw [tolower, if_neg hup] at h
  omega

theorem blank_not_digit (h : isBlank c = true) : isDigit c = false := by
  simp only [isBlank, Bool.or_eq_true, decide_eq_true_eq] at h
  rcases h with rfl | rfl <;> rfl

@[simp]
theorem spells_nil : Spells [] str ↔ ∀ c ∈ str, isBlank c = true := by
  refine ⟨?_, fun h => ⟨[], str, rfl, rfl, h⟩⟩
  rintro ⟨u, b, rfl, hu, hb⟩
  rw [map_nil, map_eq_nil_iff] at hu
  rwa [hu]

@[simp]
theorem not_spells_cons_nil {k : Char} {word : List Char} : ¬ Spells (k :: word) [] := by
  rintro ⟨u, b, hub, hu, -⟩
  rw [(append_eq_nil_iff.mp hub.symm).1] at hu
  simp at hu

@[simp]
theorem spells_cons_cons {k : Char} {word : List Char} :
    Spells (k :: word) (c :: str) ↔ tolower c = tolower k ∧ Spells word str := by
  refine ⟨?_, ?_⟩
  · rintro ⟨_ | ⟨d, u⟩, b, hub, hu, hb⟩
    · simp at hu
    · obtain ⟨rfl, rfl⟩ := cons_eq_cons.mp hub
      obtain ⟨hd, hu⟩ := cons_eq_cons.mp hu
      exact ⟨hd, u, b, rfl, hu, hb⟩
  · rintro ⟨hc, u, b, rfl, hu, hb⟩
    exact ⟨c :: u, b, rfl, by simp [hc, hu], hb⟩

section Letters

variable {word : List Char} (hword : ∀ c ∈ word, 97 ≤ tolower c)
include hword

/-- A text of letters begins with one, or is blank. -/
theorem Spells.head (h : Spells word (c :: str)) :
    isDigit c = false ∧ (isBlank c = false ∨ word = []) := by
  cases word with
  | nil => exact ⟨blank_not_digit (spells_nil.mp h c mem_cons_self), .inr rfl⟩
  | cons k word =>
    have hc := not_blank_digit ((spells_cons_cons.mp h).1 ▸ hword k mem_cons_self)
    exact ⟨hc.2, .inl hc.1⟩

theorem Spells.dropWhile (h : Spells word str) : Spells word (str.dropWhile isBlank) := by
  cases str with
  | nil => exact h
  | cons c str =>
    rcases (h.head hword).2 with hc | rfl
    · rwa [dropWhile_cons_of_neg (by simp [hc])]
    · rw [dropWhile_eq_nil_iff.mpr (spells_nil.mp h)]
      simp

end Letters

private theorem while_stop {p : Char → Bool} {l : List Char} (h : ∀ c ∈ l.head?, p c = false) :
    l.takeWhile p = [] ∧ l.dropWhile p = l := by
  cases l with
  | nil => exact ⟨rfl, rfl⟩
  | cons c l => simp [h c rfl]

/-- The parts of a text are what the loops over blanks and digits find. -/
theorem denotes_iff (hunits : ∀ x ∈ units, ∀ c ∈ x.1.toList, 97 ≤ tolower c) (number : ℕ) :
    Denotes units str number unit ↔ (str.dropWhile isBlank).head?.any isDigit = true ∧
      decimal 0 ((str.dropWhile isBlank).takeWhile isDigit) = number ∧
      UnitText units (((str.dropWhile isBlank).dropWhile isDigit).dropWhile isBlank) unit := by
  refine ⟨?_, ?_⟩
  · rintro ⟨b₁, ds, b₂, rest, rfl, hb, hne, hds, hn, name, hname, hu⟩
    have htail : ∀ c ∈ (b₂ ++ rest).head?, isDigit c = false := by
      intro c hc
      cases b₂ with
      | nil =>
        cases rest with
        | nil => cases hc
        | cons d rest =>
          cases hc
          exact (hu.head (hunits _ hname)).1
      | cons d b₂ =>
        cases hc
        exact blank_not_digit (hb _ (by simp))
    obtain ⟨d, ds, rfl⟩ := exists_cons_of_ne_nil hne
    have hd := hds d mem_cons_self
    have hdb : ¬ isBlank d = true := fun hc => by simp [blank_not_digit hc] at hd
    rw [append_assoc, append_assoc, dropWhile_append_of_pos fun c hc => hb c (mem_append_left _ hc),
      cons_append, dropWhile_cons_of_neg hdb, ← cons_append, takeWhile_append_of_pos hds,
      dropWhile_append_of_pos hds, (while_stop htail).1, (while_stop htail).2, append_nil,
      dropWhile_append_of_pos fun c hc => hb c (mem_append_right _ hc)]
    exact ⟨hd, hn, name, hname, hu.dropWhile (hunits _ hname)⟩
  · rintro ⟨hd, rfl, hu⟩
    refine ⟨str.takeWhile isBlank, (str.dropWhile isBlank).takeWhile isDigit,
      ((str.dropWhile isBlank).dropWhile isDigit).takeWhile isBlank, _, ?_, ?_, ?_, ?_, rfl, hu⟩
    · simp only [append_assoc, takeWhile_append_dropWhile]
    · intro c hc
      rcases mem_append.mp hc with hc | hc
      · exact mem_takeWhile_imp hc
      · exact mem_takeWhile_imp hc
    · cases hp : str.dropWhile isBlank with
      | nil => simp [hp] at hd
      | cons c p =>
        have hc : isDigit c = true := by simpa [hp] using hd
        simp [hc]
    · exact fun c hc => mem_takeWhile_imp hc

/-! ### The functions -/

/-- The common shape of the two functions, for a reader of units. -/
def parseUnits (max : ℕ) (unitOf : List Char → Option ℕ) (str : List Char) (out : Option ℕ) :
    Bool × Option ℕ :=
  if ¬ ((str.dropWhile isBlank).head?.any isDigit) then (false, out)
  else
    match digits max 0 (str.dropWhile isBlank) with
    | none => (false, out)
    | some (value, str) =>
      match unitOf (str.dropWhile isBlank) with
      | none => (false, out)
      | some m => if max < value * m then (false, out) else (true, out.map fun _ => value * m)

/-- What a parser of numbers with units does. -/
structure ParsesUnits (max : ℕ) (units : List (String × ℕ))
    (parse : List Char → Option ℕ → Bool × Option ℕ) : Prop where
  /-- A text of the grammar within the limit gives its value. -/
  value : ∀ str out number unit, Denotes units str number unit → number * unit ≤ max →
    parse str out = (true, out.map fun _ => number * unit)
  /-- Any other string is refused, and nothing is written. -/
  refused : ∀ str out, (¬ ∃ number unit, Denotes units str number unit ∧ number * unit ≤ max) →
    parse str out = (false, out)

theorem parseUnits_spec {unitOf : List Char → Option ℕ} (h9 : 9 ≤ max) (hmax : max < 2 ^ 64)
    (hunits : ∀ x ∈ units, ∀ c ∈ x.1.toList, 97 ≤ tolower c) (hpos : ∀ x ∈ units, 0 < x.2)
    (hof : ∀ (str : List Char) m, unitOf (str.dropWhile isBlank) = some m ↔
      UnitText units (str.dropWhile isBlank) m) :
    ParsesUnits max units (parseUnits max unitOf) where
  value str out number unit h hle := by
    obtain ⟨hd, hn, hu⟩ := (denotes_iff hunits number).mp h
    obtain ⟨name, hname, -⟩ := id hu
    have hlim : number ≤ max := (Nat.le_mul_of_pos_right _ (hpos _ hname)).trans hle
    rw [parseUnits, if_neg (not_not.mpr hd), digits_eq h9 hmax (Nat.zero_le _), hn, if_pos hlim]
    simp only [(hof _ _).mpr hu]
    rw [if_neg (Nat.not_lt.mpr hle)]
  refused str out h := by
    unfold parseUnits
    split
    · rfl
    next hd =>
      rw [digits_eq h9 hmax (Nat.zero_le _)]
      split
      · rfl
      next hdig =>
        split at hdig
        case isFalse => cases hdig
        obtain ⟨⟩ := hdig
        split
        · rfl
        next m hm =>
          refine if_pos (Nat.lt_of_not_le fun hle => h ?_)
          exact ⟨_, m, (denotes_iff hunits _).mpr ⟨not_not.mp hd, rfl, (hof _ _).mp hm⟩, hle⟩

theorem eq_ofNat_iff {n : ℕ} (h : n < 0xd800) : c = Char.ofNat n ↔ c.toNat = n := by
  refine ⟨?_, ?_⟩
  · rintro rfl
    rw [Char.toNat_ofNat, if_pos (.inl h)]
  · rintro rfl
    exact c.ofNat_toNat.symm

/-- Two letters fold to the code of the small one. -/
theorem fold_iff (n : ℕ) (h : 97 ≤ n ∧ n ≤ 122 := by decide) :
    tolower c = n ↔ c = Char.ofNat (n - 32) ∨ c = Char.ofNat n := by
  have hor : ∀ k < 91, 65 ≤ k → k ||| 0x20 = k + 32 := by decide
  rw [eq_ofNat_iff (by omega), eq_ofNat_iff (by omega), tolower]
  split
  case isTrue hc =>
    have h65 : 65 ≤ c.toNat := hc.1
    have h90 : c.toNat ≤ 90 := hc.2
    rw [hor _ (by omega) h65]
    omega
  case isFalse hc =>
    have hc : ¬ (65 ≤ c.toNat ∧ c.toNat ≤ 90) := hc
    omega

/-- The letters of the units. -/
theorem letter_iff (c : Char) : (c = 'K' ∨ c = 'k' ↔ tolower c = 107) ∧
    (c = 'M' ∨ c = 'm' ↔ tolower c = 109) ∧ (c = 'G' ∨ c = 'g' ↔ tolower c = 103) ∧
    (c = 'T' ∨ c = 't' ↔ tolower c = 116) ∧ (c = 'B' ∨ c = 'b' ↔ tolower c = 98) ∧
    (c = 'b' ∨ c = 'B' ↔ tolower c = 98) ∧ (c = 'i' ∨ c = 'I' ↔ tolower c = 105) :=
  ⟨(fold_iff 107).symm, (fold_iff 109).symm, (fold_iff 103).symm, (fold_iff 116).symm,
    (fold_iff 98).symm, or_comm.trans (fold_iff 98).symm, or_comm.trans (fold_iff 105).symm⟩

theorem tolower_letter : tolower 'k' = 107 ∧ tolower 'm' = 109 ∧ tolower 'g' = 103 ∧
    tolower 't' = 116 ∧ tolower 'b' = 98 ∧ tolower 'i' = 105 := by decide

/-- The unit of a data size. -/
def dataUnit (str : List Char) : Option ℕ :=
  match unitPrefix str with
  | none => none
  | some (m, hasPrefix, str) =>
    match if hasPrefix then unitSuffix str else some str with
    | none => none
    | some str => if str.dropWhile isBlank ≠ [] then none else some m

/-- What may follow a prefix up to the end of the string. -/
theorem unitSuffix_iff (str : List Char) :
    (∃ s', unitSuffix str = some s' ∧ s'.dropWhile isBlank = []) ↔
      Spells [] str ∨ Spells ['b'] str ∨ Spells ['i', 'b'] str := by
  cases str with
  | nil => simp [unitSuffix]
  | cons c s =>
    simp only [unitSuffix, letter_iff, dropWhile_eq_nil_iff, spells_nil, spells_cons_cons,
      tolower_letter]
    by_cases hc : 97 ≤ tolower c
    · have hblank := (not_blank_digit hc).1
      cases s with
      | nil => split_ifs <;> simp_all
      | cons d s =>
        simp only [spells_cons_cons, tolower_letter, spells_nil]
        split_ifs <;> simp_all
    · rw [if_neg (by omega), if_neg (by omega)]
      simp
      omega

/-- The unit of a data size is read as the table has it. -/
theorem dataUnit_iff (str : List Char) (m : ℕ) :
    dataUnit (str.dropWhile isBlank) = some m ↔ UnitText dataUnits (str.dropWhile isBlank) m := by
  cases hs : str.dropWhile isBlank with
  | nil =>
    simp only [UnitText, dataUnits, mem_cons, Prod.mk.injEq, or_and_right, exists_or]
    simpa [dataUnit, unitPrefix] using eq_comm
  | cons c s =>
    have hc : isBlank c = false := by
      have := head?_dropWhile_not isBlank str
      simpa [hs] using this
    have hsuffix := unitSuffix_iff s
    simp [UnitText, dataUnits, or_and_right, exists_or, hc, tolower_letter]
    simp only [dataUnit, unitPrefix, letter_iff]
    generalize tolower c = n
    cases hu : unitSuffix s with
    | none =>
      simp [hu] at hsuffix
      split_ifs <;> simp_all
    | some s' =>
      simp [hu] at hsuffix
      split_ifs <;> simp_all <;> grind

theorem digits_le {r : ℕ × List Char} (h9 : 9 ≤ max) (hmax : max < 2 ^ 64)
    (h : digits max 0 str = some r) : r.1 ≤ max := by
  rw [digits_eq h9 hmax (Nat.zero_le _)] at h
  obtain ⟨hle, ⟨⟩⟩ := ite_none_right_eq_some.mp h
  exact hle

/-- The division after the product finds an overflow. -/
theorem div_ne_iff {m : ℕ} (hv : value ≤ uint64Max) :
    m > 1 ∧ value * m % 2 ^ 64 / m ≠ value ↔ uint64Max < value * m := by
  have hmax : uint64Max = 2 ^ 64 - 1 := rfl
  by_cases hlt : value * m < 2 ^ 64
  · rw [mod_eq_of_lt hlt]
    refine ⟨fun ⟨hm, hne⟩ => absurd (Nat.mul_div_cancel _ (by omega)) hne, fun h => by omega⟩
  refine ⟨fun _ => by omega, fun _ => ⟨?_, fun he => hlt ?_⟩⟩
  · by_contra hm
    have := Nat.mul_le_mul_left value (Nat.le_of_not_lt hm)
    omega
  · have hmul := div_mul_le_self (value * m % 2 ^ 64) m
    rw [he] at hmul
    exact hmul.trans_lt (mod_lt _ (by decide))

theorem parseIsDataSize_eq : parseIsDataSize = parseUnits uint64Max dataUnit := by
  funext str out
  unfold parseIsDataSize parseUnits dataUnit
  dsimp only
  split
  · rfl
  cases hd : digits uint64Max 0 (str.dropWhile isBlank) with
  | none => rfl
  | some r =>
    have hv : r.1 ≤ uint64Max := digits_le (by decide) (by decide) hd
    dsimp only
    cases unitPrefix (r.2.dropWhile isBlank) with
    | none => rfl
    | some x =>
      dsimp only
      cases if x.2.1 then unitSuffix x.2.2 else some x.2.2 with
      | none => rfl
      | some s =>
        dsimp only
        split
        · rfl
        simp only [div_ne_iff hv]
        split
        · rfl
        next hle =>
          have : r.1 * x.1 < 2 ^ 64 := by
            rw [uint64Max] at hle
            omega
          rw [mod_eq_of_lt this]

/-! ### Durations -/

/-- The comparison of as many characters as the word has. -/
theorem strncasecmp_iff (str : List Char) {word : List Char} (hword : ∀ c ∈ word, 97 ≤ tolower c) :
    (str.drop (str.takeWhile (!isBlank ·)).length).dropWhile isBlank = [] ∧
      (str.takeWhile (!isBlank ·)).length = word.length ∧
      strncasecmp str word (str.takeWhile (!isBlank ·)).length = 0 ↔ Spells word str := by
  induction word generalizing str with
  | nil =>
    rw [spells_nil]
    refine ⟨?_, fun h => ?_⟩
    · rintro ⟨hrest, hlen, -⟩
      rwa [hlen, length_nil, drop_zero, dropWhile_eq_nil_iff] at hrest
    · have hstop : str.takeWhile (!isBlank ·) = [] :=
        (while_stop fun c hc => by simp [h c (mem_of_mem_head? hc)]).1
      simpa [hstop, strncasecmp] using h
  | cons k word ih =>
    cases str with
    | nil => simp
    | cons c str =>
      by_cases hc : tolower c = tolower k
      · have hblank := (not_blank_digit (hc ▸ hword k mem_cons_self)).1
        rw [spells_cons_cons, ← ih _ fun c hc => hword c (mem_cons_of_mem _ hc)]
        simp [hblank, hc, strncasecmp]
      · have hsub : (tolower c : ℤ) - tolower k ≠ 0 := by omega
        cases hblank : isBlank c with
        | false => simp [hblank, hc, hsub, strncasecmp]
        | true => simp [hblank, hc]

/-- The unit of a duration. -/
def durationUnit (str : List Char) : Option ℕ :=
  let unitLen := (str.takeWhile (!isBlank ·)).length
  if (str.drop unitLen).dropWhile isBlank ≠ [] then none
  else
    (timeUnits.find? fun u =>
      unitLen = u.1.length ∧ strncasecmp str u.1.toList unitLen = 0).map Prod.snd

theorem Spells.unique {v w : List Char} (hv : ∀ c ∈ v, 97 ≤ tolower c)
    (hw : ∀ c ∈ w, 97 ≤ tolower c) (h : Spells v str) (h' : Spells w str) :
    v.map tolower = w.map tolower := by
  induction v generalizing w str with
  | nil =>
    cases w with
    | nil => rfl
    | cons k w =>
      cases str with
      | nil => simp at h'
      | cons c str =>
        have hc := (h'.head hw).2
        simp [spells_nil.mp h c mem_cons_self] at hc
  | cons k v ih =>
    cases str with
    | nil => simp at h
    | cons c str =>
      cases w with
      | nil =>
        have hc := (h.head hv).2
        simp [spells_nil.mp h' c mem_cons_self] at hc
      | cons l w =>
        rw [spells_cons_cons] at h h'
        rw [map_cons, map_cons, ← h.1, ← h'.1, ih (fun c hc => hv c (mem_cons_of_mem _ hc))
          (fun c hc => hw c (mem_cons_of_mem _ hc)) h.2 h'.2]

theorem timeUnits_letters : ∀ x ∈ timeUnits, ∀ c ∈ x.1.toList, 97 ≤ tolower c := by
  simp [timeUnits, tolower]

theorem durationUnit_iff (str : List Char) (m : ℕ) :
    durationUnit str = some m ↔ UnitText timeUnits str m := by
  have hunique : ∀ x ∈ timeUnits, ∀ y ∈ timeUnits,
      x.1.toList.map tolower = y.1.toList.map tolower → x.2 = y.2 := by decide +kernel
  have hspell : ∀ x ∈ timeUnits, _ := fun x hx => strncasecmp_iff str (timeUnits_letters x hx)
  simp only [durationUnit, ← String.length_toList]
  refine ⟨?_, ?_⟩
  · intro h
    obtain ⟨hrest, h⟩ := ite_none_left_eq_some.mp h
    obtain ⟨⟨name, _⟩, hfind, rfl⟩ := map_eq_some_iff.mp h
    have hx := mem_of_find?_eq_some hfind
    exact ⟨name, hx, (hspell _ hx).mp ⟨not_not.mp hrest, by simpa using find?_some hfind⟩⟩
  · rintro ⟨name, hx, h⟩
    obtain ⟨hrest, htest⟩ := (hspell _ hx).mpr h
    rw [if_neg (not_not.mpr hrest)]
    cases hfind : timeUnits.find? _ with
    | none =>
      have hno := find?_eq_none.mp hfind _ hx
      simp [htest.1, htest.1 ▸ htest.2] at hno
    | some y =>
      have hy := mem_of_find?_eq_some hfind
      have hs := (hspell y hy).mp ⟨hrest, by simpa using find?_some hfind⟩
      rw [map_some, hunique y hy _ hx
        (hs.unique (timeUnits_letters y hy) (timeUnits_letters _ hx) h)]

theorem parseIsDuration_eq : parseIsDuration = parseUnits timeNsMax durationUnit := by
  funext str out
  unfold parseIsDuration parseUnits durationUnit
  dsimp only
  split
  · rfl
  cases hd : digits timeNsMax 0 (str.dropWhile isBlank) with
  | none => rfl
  | some r =>
    dsimp only
    split
    · rfl
    cases timeUnits.find? _ with
    | none => rfl
    | some x =>
      have hover : x.2 > 0 ∧ r.1 > timeNsMax / x.2 ↔ timeNsMax < r.1 * x.2 := by
        rcases Nat.eq_zero_or_pos x.2 with h0 | hpos
        · simp [h0]
        · simp [hpos, div_lt_iff_lt_mul]
      simp only [hover, map_some]
      split
      · rfl
      next hle =>
        have : r.1 * x.2 < 2 ^ 64 := by
          rw [timeNsMax, uint64Max] at hle
          omega
        rw [mod_eq_of_lt this]

/-- `parse_is_data_size` and `parse_is_duration` accept exactly the texts of their grammars whose
value is within the limit, give that value, and write nothing on a refusal. -/
theorem parse_units : ParsesUnits uint64Max dataUnits parseIsDataSize ∧
    ParsesUnits timeNsMax timeUnits parseIsDuration := by
  rw [parseIsDataSize_eq, parseIsDuration_eq]
  exact ⟨parseUnits_spec (by decide) (by decide) (by simp [dataUnits, tolower]) (by decide)
    dataUnit_iff,
    parseUnits_spec (by decide) (by decide) timeUnits_letters (by decide) fun _ =>
      durationUnit_iff _⟩

end Charmos.Parse

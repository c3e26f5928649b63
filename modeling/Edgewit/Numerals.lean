import Mathlib.Data.Nat.Digits.Defs
import Mathlib.Tactic.Ring

/-!
# Numbers as bytes and as text

* `toLE`, `ofLE`: fixed-width little-endian bytes, keeping the low bytes of a
  number that does not fit;
* `hexText`, `readHex`: zero-padded lower-case hexadecimal and its reader, which
  takes digits of either case;
* `parseU64`, `parseI64`: decimal text as `str::parse` reads it;
* `decimal_iff`: which texts are read, and the number they spell.
-/

namespace Numerals

/-! ## Little-endian bytes -/

/-- The `width` low bytes of `n`, least significant first. -/
def toLE : Nat → Nat → List UInt8
  | 0, _ => []
  | width + 1, n => UInt8.ofNat n :: toLE width (n / 256)

def ofLE : List UInt8 → Nat
  | [] => 0
  | b :: bs => b.toNat + 256 * ofLE bs

@[simp] theorem length_toLE (width n : Nat) : (toLE width n).length = width := by
  induction width generalizing n with
  | zero => rfl
  | succ width ih => simp [toLE, ih]

theorem ofLE_toLE (width n : Nat) : ofLE (toLE width n) = n % 256 ^ width := by
  induction width generalizing n with
  | zero => simp [toLE, ofLE, Nat.mod_one]
  | succ width ih =>
    rw [toLE, ofLE, ih, UInt8.toNat_ofNat', pow_succ' 256, Nat.mod_mul]

/-- A number that fits is read back unchanged. -/
theorem ofLE_toLE_of_lt {width n : Nat} (h : n < 256 ^ width) : ofLE (toLE width n) = n := by
  rw [ofLE_toLE, Nat.mod_eq_of_lt h]

theorem ofLE_lt (bs : List UInt8) : ofLE bs < 256 ^ bs.length := by
  induction bs with
  | nil => simp [ofLE]
  | cons b bs ih =>
    have hb := b.toNat_lt
    simp only [ofLE, List.length_cons, pow_succ]
    omega

/-- Bytes are the number they spell, written at their own width. -/
theorem toLE_ofLE (bs : List UInt8) : toLE bs.length (ofLE bs) = bs := by
  induction bs with
  | nil => rfl
  | cons b bs ih =>
    have hb := b.toNat_lt
    have hlow : UInt8.ofNat (b.toNat + 256 * ofLE bs) = b := by
      apply UInt8.toNat_inj.mp
      rw [UInt8.toNat_ofNat']
      omega
    have hrest : (b.toNat + 256 * ofLE bs) / 256 = ofLE bs := by omega
    rw [List.length_cons, ofLE, toLE, hlow, hrest, ih]

/-! ## Hexadecimal text -/

/-- The hexadecimal digits of `n`, most significant first, padded with zeros. -/
def hexText (width n : Nat) : List Char :=
  let digits := (Nat.digits 16 n).reverse.map Nat.digitChar
  List.replicate (width - digits.length) '0' ++ digits

def hexDigit? (c : Char) : Option Nat :=
  if '0' ≤ c ∧ c ≤ '9' then some (c.toNat - 48)
  else if 'a' ≤ c ∧ c ≤ 'f' then some (c.toNat - 87)
  else if 'A' ≤ c ∧ c ≤ 'F' then some (c.toNat - 55)
  else none

/-- Appends the digits of a text to the number read so far. -/
def readHex : Nat → List Char → Option Nat
  | n, [] => some n
  | n, c :: cs => (hexDigit? c).bind fun d => readHex (16 * n + d) cs

theorem hexDigit?_digitChar : ∀ d < 16, hexDigit? (Nat.digitChar d) = some d := by decide

theorem readHex_append (n : Nat) (as bs : List Char) :
    readHex n (as ++ bs) = (readHex n as).bind (readHex · bs) := by
  induction as generalizing n with
  | nil => rfl
  | cons c cs ih =>
    simp only [List.cons_append, readHex]
    cases hexDigit? c with
    | none => rfl
    | some d => exact ih _

theorem readHex_zeros (k : Nat) : readHex 0 (List.replicate k '0') = some 0 := by
  induction k with
  | zero => rfl
  | succ k ih => simpa [List.replicate_succ, readHex, show hexDigit? '0' = some 0 by decide] using ih

theorem readHex_digits {ds : List Nat} (h : ∀ d ∈ ds, d < 16) :
    readHex 0 (ds.reverse.map Nat.digitChar) = some (Nat.ofDigits 16 ds) := by
  induction ds with
  | nil => rfl
  | cons d ds ih =>
    have hd := hexDigit?_digitChar d (h d List.mem_cons_self)
    have hds := ih fun x hx => h x (List.mem_cons_of_mem d hx)
    simp only [List.reverse_cons, List.map_append, readHex_append, hds, Option.bind_some,
      List.map_cons, List.map_nil, readHex, hd, Nat.ofDigits_cons]
    simp only [Option.some.injEq]
    ring

/-- Reading a printed number gives the number back, whatever the padding. -/
theorem readHex_hexText (width n : Nat) : readHex 0 (hexText width n) = some n := by
  have hdigits := readHex_digits fun d hd => Nat.digits_lt_base (b := 16) (m := n) (by decide) hd
  rw [Nat.ofDigits_digits] at hdigits
  simp only [hexText, readHex_append, readHex_zeros, Option.bind_some, hdigits]

/-- A padded text consists of digits only. -/
theorem mem_hexText {width n : Nat} {c : Char} (h : c ∈ hexText width n) :
    ∃ d < 16, c = Nat.digitChar d := by
  simp only [hexText, List.mem_append, List.mem_replicate, List.mem_map, List.mem_reverse] at h
  rcases h with ⟨_, rfl⟩ | ⟨d, hd, rfl⟩
  · exact ⟨0, by decide, rfl⟩
  · exact ⟨d, Nat.digits_lt_base (by decide) hd, rfl⟩

/-! ## Decimal text -/

def decDigit? (c : Char) : Option Nat :=
  if '0' ≤ c ∧ c ≤ '9' then some (c.toNat - 48) else none

def readDec : Nat → List Char → Option Nat
  | n, [] => some n
  | n, c :: cs => (decDigit? c).bind fun d => readDec (10 * n + d) cs

/-- One digit or more. -/
def decimal : List Char → Option Nat
  | [] => none
  | cs => readDec 0 cs

/-- The number that a text of digits spells. -/
def decimalValue (cs : List Char) : Nat := Nat.ofDigits 10 (cs.reverse.map fun c => c.toNat - 48)

theorem decimalValue_cons (c : Char) (cs : List Char) :
    decimalValue (c :: cs) = (c.toNat - 48) * 10 ^ cs.length + decimalValue cs := by
  simp [decimalValue, Nat.ofDigits_append]
  ring

theorem readDec_iff {k n : Nat} {cs : List Char} :
    readDec k cs = some n ↔
      (∀ c ∈ cs, '0' ≤ c ∧ c ≤ '9') ∧ n = k * 10 ^ cs.length + decimalValue cs := by
  induction cs generalizing k with
  | nil => simp [readDec, decimalValue, eq_comm]
  | cons c cs ih =>
    rw [readDec, decDigit?, decimalValue_cons, List.forall_mem_cons, List.length_cons]
    split
    · rename_i hdigit
      have hvalue : (10 * k + (c.toNat - 48)) * 10 ^ cs.length + decimalValue cs =
          k * 10 ^ (cs.length + 1) + ((c.toNat - 48) * 10 ^ cs.length + decimalValue cs) := by
        ring
      rw [Option.bind_some, ih, hvalue]
      simp only [hdigit, and_self, true_and]
    · rename_i hdigit
      simp [hdigit]

/-- What is read as a number is a text of digits, and the number it spells. -/
theorem decimal_iff {cs : List Char} {n : Nat} :
    decimal cs = some n ↔ cs ≠ [] ∧ (∀ c ∈ cs, '0' ≤ c ∧ c ≤ '9') ∧ n = decimalValue cs := by
  cases cs with
  | nil => simp [decimal]
  | cons c cs =>
    rw [decimal]
    · rw [readDec_iff, Nat.zero_mul, Nat.zero_add]
      simp
    · simp

/-- Drops one plus sign. -/
def unsigned : List Char → List Char
  | '+' :: cs => cs
  | cs => cs

theorem plus_not_digit : ¬ ('0' ≤ '+' ∧ '+' ≤ '9') := by decide

/-- A number may have a sign. -/
theorem decimal_unsigned_iff {cs : List Char} {n : Nat} :
    decimal (unsigned cs) = some n ↔ ∃ digits, (cs = digits ∨ cs = '+' :: digits) ∧ digits ≠ [] ∧
      (∀ c ∈ digits, '0' ≤ c ∧ c ≤ '9') ∧ n = decimalValue digits := by
  rw [decimal_iff]
  constructor
  · rintro ⟨hne, hdigits, hvalue⟩
    refine ⟨unsigned cs, ?_, hne, hdigits, hvalue⟩
    unfold unsigned
    split
    · exact Or.inr rfl
    · exact Or.inl rfl
  · rintro ⟨digits, hsign, hne, hdigits, hvalue⟩
    have hunsigned : unsigned cs = digits := by
      rcases hsign with rfl | rfl
      · unfold unsigned
        split
        · exact absurd (hdigits '+' List.mem_cons_self) plus_not_digit
        · rfl
      · rfl
    rw [hunsigned]
    exact ⟨hne, hdigits, hvalue⟩

def parseU64 (cs : List Char) : Option Nat :=
  (decimal (unsigned cs)).filter fun n => n < 2 ^ 64

theorem parseU64_iff {cs : List Char} {n : Nat} :
    parseU64 cs = some n ↔ decimal (unsigned cs) = some n ∧ n < 2 ^ 64 := by
  simp [parseU64, Option.filter_eq_some_iff]

def parseI64 : List Char → Option Int
  | '-' :: cs => ((decimal cs).filter fun n => n ≤ 2 ^ 63).map fun n => -Int.ofNat n
  | cs => ((decimal (unsigned cs)).filter fun n => n < 2 ^ 63).map Int.ofNat

/-- A text that is read as an unsigned number is read as the same signed one, if it
is not too large for it. -/
theorem parseI64_of_parseU64 {cs : List Char} {n : Nat} (h : parseU64 cs = some n) :
    parseI64 cs = if n < 2 ^ 63 then some (n : Int) else none := by
  have hread : decimal (unsigned cs) = some n := by
    rw [parseU64, Option.filter_eq_some_iff] at h
    exact h.1
  have hsigned : ∀ rest, cs ≠ '-' :: rest := by
    rintro rest rfl
    simp [unsigned, decimal, readDec, decDigit?] at hread
  have hparse : parseI64 cs = ((decimal (unsigned cs)).filter fun n => n < 2 ^ 63).map Int.ofNat := by
    unfold parseI64
    split
    · rename_i rest
      exact absurd rfl (hsigned rest)
    · rfl
  rw [hparse, hread, Option.filter_some]
  by_cases hlt : n < 2 ^ 63 <;> simp only [hlt, decide_true, decide_false, if_true, Bool.false_eq_true,
    if_false] <;> rfl

end Numerals

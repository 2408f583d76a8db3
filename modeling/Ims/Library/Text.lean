import Mathlib.Data.List.Basic
import Mathlib.Data.List.TakeWhile

namespace Ims.Library.Text

def isSpace (c : Char) : Bool :=
  (9 ≤ c.toNat && c.toNat ≤ 13) || (28 ≤ c.toNat && c.toNat ≤ 32) || c.toNat == 0x85 ||
    c.toNat == 0xA0 || c.toNat == 0x1680 || (0x2000 ≤ c.toNat && c.toNat ≤ 0x200A) ||
    c.toNat == 0x2028 || c.toNat == 0x2029 || c.toNat == 0x202F || c.toNat == 0x205F ||
    c.toNat == 0x3000

def trimList (p : Char → Bool) (cs : List Char) : List Char :=
  ((cs.dropWhile p).reverse.dropWhile p).reverse

def trim (p : Char → Bool) (s : String) : String := String.ofList (trimList p s.toList)

def strip (s : String) : String := trim isSpace s

/-- Python's s.partition(sep) for a separator of one character. -/
def partition (sep : Char) (s : String) : String × String × String :=
  match s.toList.dropWhile fun c => c ≠ sep with
  | [] => (s, "", "")
  | _ :: tail =>
      (String.ofList (s.toList.takeWhile fun c => c ≠ sep), String.singleton sep, String.ofList tail)

/-- The digits after the first one; a single underscore may part two of them. -/
def parseDigits (acc : Nat) : List Char → Option Nat
  | [] => some acc
  | [c] => if c.isDigit then some (10 * acc + (c.toNat - '0'.toNat)) else none
  | c :: d :: cs =>
      if c.isDigit then parseDigits (10 * acc + (c.toNat - '0'.toNat)) (d :: cs)
      else if c = '_' ∧ d.isDigit then parseDigits (10 * acc + (d.toNat - '0'.toNat)) cs
      else none

def parseNat : List Char → Option Nat
  | [] => none
  | c :: cs => if c.isDigit then parseDigits (c.toNat - '0'.toNat) cs else none

def parseInt : List Char → Option Int
  | '-' :: cs => (parseNat cs).map fun n => -(n : Int)
  | '+' :: cs => (parseNat cs).map fun n => (n : Int)
  | cs => (parseNat cs).map fun n => (n : Int)

/-- Python's int(s), absent where it raises ValueError, for ASCII digits. -/
def int (s : String) : Option Int := parseInt (trimList isSpace s.toList)

def str (n : Int) : String := toString n

theorem trimList_of_all {p : Char → Bool} {cs : List Char} (h : ∀ c ∈ cs, p c = false) :
    trimList p cs = cs := by
  have hdrop : ∀ ds : List Char, (∀ c ∈ ds, p c = false) → ds.dropWhile p = ds := by
    intro ds hds
    cases ds with
    | nil => rfl
    | cons d ds => simp [hds d (by simp)]
  rw [trimList, hdrop cs h, hdrop cs.reverse (by simpa using h), List.reverse_reverse]

theorem mem_trimList {p : Char → Bool} {cs : List Char} {c : Char} (hc : c ∈ cs) (hp : p c = false) :
    c ∈ trimList p cs := by
  have hdrop : ∀ ds : List Char, c ∈ ds → c ∈ ds.dropWhile p := by
    intro ds hds
    induction ds with
    | nil => exact hds
    | cons d ds ih =>
        by_cases hd : p d = true
        · rw [List.dropWhile_cons_of_pos hd]
          apply ih
          rcases List.mem_cons.mp hds with rfl | hds
          · rw [hp] at hd
            cases hd
          · exact hds
        · rwa [List.dropWhile_cons_of_neg hd]
  rw [trimList, List.mem_reverse]
  apply hdrop
  rw [List.mem_reverse]
  exact hdrop cs hc

theorem trimList_head {p : Char → Bool} {cs : List Char} {c : Char}
    (h : (trimList p cs).head? = some c) : p c = false := by
  have hprefix : trimList p cs <+: cs.dropWhile p := by
    rw [← List.reverse_suffix, trimList, List.reverse_reverse]
    exact List.dropWhile_suffix p
  obtain ⟨rest, hrest⟩ := hprefix
  have hhead := List.head?_dropWhile_not p cs
  rw [← hrest, List.head?_append, h] at hhead
  exact hhead

theorem trimList_last {p : Char → Bool} {cs : List Char} {c : Char}
    (h : (trimList p cs).getLast? = some c) : p c = false := by
  have hhead := List.head?_dropWhile_not p (cs.dropWhile p).reverse
  rw [trimList, List.getLast?_reverse] at h
  rw [h] at hhead
  exact hhead

theorem length_trimList (p : Char → Bool) (cs : List Char) : (trimList p cs).length ≤ cs.length := by
  have hfront := (List.dropWhile_suffix p (l := cs)).length_le
  have hback := (List.dropWhile_suffix p (l := (cs.dropWhile p).reverse)).length_le
  rw [List.length_reverse] at hback
  rw [trimList, List.length_reverse]
  exact hback.trans hfront

theorem length_trim (p : Char → Bool) (s : String) : (trim p s).length ≤ s.length := by
  have := length_trimList p s.toList
  rwa [trim, String.length_ofList, ← String.length_toList]

/-- A text is blank when all of it is trimmed away. -/
theorem trim_eq_empty {p : Char → Bool} {s : String} :
    trim p s = "" ↔ ∀ c ∈ s.toList, p c = true := by
  have hlist : trim p s = "" ↔ trimList p s.toList = [] := by
    rw [trim, ← String.toList_inj, String.toList_ofList]
    rfl
  rw [hlist]
  constructor
  · intro hnil c hc
    by_contra hp
    have hmem := mem_trimList hc (Bool.eq_false_iff.mpr hp)
    rw [hnil] at hmem
    cases hmem
  · intro hall
    rw [trimList, List.dropWhile_eq_nil_iff.mpr hall]
    rfl

theorem trim_ne_empty {p : Char → Bool} {s : String} :
    trim p s ≠ "" ↔ ∃ c ∈ s.toList, p c = false := by
  rw [ne_eq, trim_eq_empty]
  push Not
  simp only [ne_eq, Bool.not_eq_true]

/-- What is left of a text by trimming is not blank either. -/
theorem trim_trim_ne_empty {p : Char → Bool} {s : String} (h : trim p s ≠ "") :
    trim p (trim p s) ≠ "" := by
  obtain ⟨c, hc, hp⟩ := trim_ne_empty.mp h
  apply trim_ne_empty.mpr
  refine ⟨c, ?_, hp⟩
  rw [trim, String.toList_ofList]
  exact mem_trimList hc hp

theorem trim_ne_empty_of_imp {p q : Char → Bool} (himp : ∀ c, q c = true → p c = true) {s : String}
    (h : trim p s ≠ "") : trim q s ≠ "" := by
  obtain ⟨c, hc, hp⟩ := trim_ne_empty.mp h
  apply trim_ne_empty.mpr
  refine ⟨c, hc, ?_⟩
  by_contra hq
  rw [himp c (Bool.not_eq_false _ ▸ hq)] at hp
  cases hp

theorem isSpace_of_isDigit {c : Char} (h : c.isDigit = true) : isSpace c = false := by
  have hc : 48 ≤ c.toNat ∧ c.toNat ≤ 57 := by
    simpa [Char.isDigit, UInt32.le_iff_toNat_le] using h
  simp only [isSpace, Bool.or_eq_false_iff, Bool.and_eq_false_iff, decide_eq_false_iff_not,
    beq_eq_false_iff_ne]
  omega

theorem parseDigits_eq (acc : Nat) (cs : List Char) (h : ∀ c ∈ cs, c.isDigit = true) :
    parseDigits acc cs = some (Nat.ofDigitChars 10 cs acc) := by
  induction cs generalizing acc with
  | nil => simp [parseDigits]
  | cons c cs ih =>
      have hc := h c (by simp)
      rw [Nat.ofDigitChars_cons, ← ih _ fun d hd => h d (by simp [hd])]
      cases cs <;> simp [parseDigits, hc]

theorem parseNat_toDigits (n : Nat) : parseNat (Nat.toDigits 10 n) = some n := by
  have hdigit : ∀ c ∈ Nat.toDigits 10 n, c.isDigit = true := fun c hc =>
    Nat.isDigit_of_mem_toDigits (by omega) (by omega) hc
  have hvalue : Nat.ofDigitChars 10 (Nat.toDigits 10 n) 0 = n := Nat.ofDigitChars_ten_toDigits
  cases hn : Nat.toDigits 10 n with
  | nil => exact absurd hn Nat.toDigits_ne_nil
  | cons c cs =>
      rw [hn] at hdigit hvalue
      rw [Nat.ofDigitChars_cons, Nat.mul_zero, Nat.zero_add] at hvalue
      rw [parseNat, if_pos (hdigit c (by simp)),
        parseDigits_eq _ cs fun d hd => hdigit d (by simp [hd]), hvalue]

theorem parseInt_digits {cs : List Char} (h : ∀ c ∈ cs, c.isDigit = true) :
    parseInt cs = (parseNat cs).map fun n => (n : Int) := by
  cases cs with
  | nil => rfl
  | cons c cs =>
      have hc := h c (by simp)
      unfold parseInt
      split
      · next he => cases he; exact absurd hc (by decide)
      · next he => cases he; exact absurd hc (by decide)
      · rfl

theorem toList_str_ofNat (k : Nat) : (str (Int.ofNat k)).toList = Nat.toDigits 10 k :=
  Nat.toList_repr

theorem toList_str_negSucc (k : Nat) :
    (str (Int.negSucc k)).toList = '-' :: Nat.toDigits 10 (k + 1) := by
  change ("-" ++ Nat.repr (k + 1)).toList = _
  rw [String.toList_append, Nat.toList_repr]
  rfl

theorem int_str (n : Int) : int (str n) = some n := by
  have hdigit : ∀ (k : Nat), ∀ c ∈ Nat.toDigits 10 k, c.isDigit = true := fun k c hc =>
    Nat.isDigit_of_mem_toDigits (by omega) (by omega) hc
  cases n with
  | ofNat k =>
      rw [int, toList_str_ofNat, trimList_of_all fun c hc => isSpace_of_isDigit (hdigit k c hc),
        parseInt_digits (hdigit k), parseNat_toDigits]
      rfl
  | negSucc k =>
      rw [int, toList_str_negSucc, trimList_of_all, parseInt, parseNat_toDigits]
      · rfl
      · intro c hc
        rcases List.mem_cons.mp hc with rfl | hc
        · decide
        · exact isSpace_of_isDigit (hdigit (k + 1) c hc)

theorem not_mem_str {c : Char} (hdigit : c.isDigit = false) (hminus : c ≠ '-') (n : Int) :
    c ∉ (str n).toList := by
  have hdigits (k : Nat) : c ∉ Nat.toDigits 10 k := by
    intro hc
    rw [Nat.isDigit_of_mem_toDigits (by omega) (by omega) hc] at hdigit
    cases hdigit
  cases n with
  | ofNat k =>
      rw [toList_str_ofNat]
      exact hdigits k
  | negSucc k =>
      rw [toList_str_negSucc, List.mem_cons, not_or]
      exact ⟨hminus, hdigits (k + 1)⟩

theorem str_injective {m n : Int} (h : str m = str n) : m = n := by
  have := congrArg int h
  simpa only [int_str, Option.some.injEq] using this

theorem str_ne_empty (n : Int) : str n ≠ "" := by
  intro h
  have := congrArg int h
  rw [int_str] at this
  cases this

theorem int_letter {c : Char} {cs : List Char} {s : String} (h : s.toList = c :: cs)
    (hspace : isSpace c = false) (hdigit : c.isDigit = false) (hplus : c ≠ '+') (hminus : c ≠ '-') :
    int s = none := by
  have hdrop : (s.toList.dropWhile isSpace) = c :: cs := by simp [h, hspace]
  have hhead : ∃ ds, trimList isSpace s.toList = c :: ds := by
    rw [trimList, hdrop, List.reverse_cons, List.dropWhile_append]
    split
    · exact ⟨[], by simp [hspace]⟩
    · exact ⟨_, by rw [List.reverse_append]; rfl⟩
  obtain ⟨ds, hds⟩ := hhead
  rw [int, hds]
  unfold parseInt
  split
  · next he => cases he; exact absurd rfl hminus
  · next he => cases he; exact absurd rfl hplus
  · simp [parseNat, hdigit]

theorem partition_eq {sep : Char} {s head tail : String} (hsep : sep ∉ head.toList)
    (hs : s.toList = head.toList ++ sep :: tail.toList) :
    partition sep s = (head, String.singleton sep, tail) := by
  have hhead : ∀ c ∈ head.toList, (fun c => decide (c ≠ sep)) c = true := by
    intro c hc
    apply decide_eq_true
    rintro rfl
    exact hsep hc
  have htake : s.toList.takeWhile (fun c => decide (c ≠ sep)) = head.toList := by
    rw [hs, List.takeWhile_append_of_pos hhead]
    simp
  have hdrop : s.toList.dropWhile (fun c => decide (c ≠ sep)) = sep :: tail.toList := by
    rw [hs, List.dropWhile_append_of_pos hhead]
    simp
  rw [partition, hdrop, htake]
  simp only [String.ofList_toList]

end Ims.Library.Text

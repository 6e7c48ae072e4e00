/-
  TEXTS are read as the documents they were written from.

  A document is written without blanks, and what stands behind a value is a comma, the end of the
  list or object around it, or nothing.  So a value is read the same whatever follows.  Integers of
  64 bits are read back, and so are strings; a float is read back if its digits are, which is said
  of the float alone.

    1. STRINGS.    Every character is read from its escape.
    2. NUMBERS.    `Reading.Ends`; a number is the same whatever stands behind it.
    3. DOCUMENTS.  `Json.leaves`, `Json.Legible`; lists, objects, and the whole text.
    4. RANGES.     `Json.Ranged`: documents whose integers have 64 bits.
-/
import CompositeGraph.Json.Reader
import CompositeGraph.Json.Writer
import Mathlib.Algebra.Group.Nat.Defs
import Mathlib.Data.List.DropRight

namespace CompositeGraph

namespace Reading

open Decimal (digitValue splitSign)
open Json (escape quote hexDigit)

/-! ## Strings -/

theorem hexValue?_hexDigit : ∀ n < 16, hexValue? (hexDigit n) = some n := by decide

/-- A control character is read from its code. -/
theorem escaped_control {n : Nat} (hn : n < 32) (rest : List Char) :
    escaped ('u' :: '0' :: '0' :: hexDigit (n / 16) :: hexDigit (n % 16) :: rest) =
      .ok (some (Char.ofNat n), rest) := by
  have hunit : hexUnit ('0' :: '0' :: hexDigit (n / 16) :: hexDigit (n % 16) :: rest) =
    .ok (n, rest) := by
    have hzero : hexValue? '0' = some 0 := by decide
    have hvalue : ((0 * 16 + 0) * 16 + n / 16) * 16 + n % 16 = n := by omega
    rw [hexUnit, hzero, hexValue?_hexDigit _ (by omega), hexValue?_hexDigit _ (by omega)]
    exact congrArg (fun n => Except.ok (n, rest)) hvalue
  simp only [escaped, hunit, bind, Except.bind, pure, Except.pure]
  rw [if_neg (by omega), if_pos (by omega)]

theorem escape_ne_nil (c : Char) : (escape c).toList ≠ [] := by
  unfold escape
  repeat' split
  all_goals simp

/-- An escape is read as the one character it stands for. -/
theorem characters_escaped {c : Char} {text rest : List Char}
    (h : escaped text = .ok (some c, rest)) (n : Nat) (read : List Char) :
      characters (n + 1) ('\\' :: text) (some read) = characters n rest (some (c :: read)) := by
  rw [characters, h]
  rfl

/-- One character of a string, however it is written. -/
theorem characters_escape (c : Char) (n : Nat) (rest read : List Char) :
    characters (n + 1) ((escape c).toList ++ rest) (some read) =
      characters n rest (some (c :: read)) := by
  have hcode {m : Nat} (h : c.toNat = m) : c = Char.ofNat m := h ▸ c.ofNat_toNat.symm
  unfold escape
  split
  case isTrue h => rw [beq_iff_eq.mp h]; rfl
  case isFalse hquote =>
  split
  case isTrue h => rw [beq_iff_eq.mp h]; rfl
  case isFalse hbackslash =>
  split
  case isTrue h => rw [beq_iff_eq.mp h]; rfl
  split
  case isTrue h => rw [beq_iff_eq.mp h]; rfl
  split
  case isTrue h => rw [beq_iff_eq.mp h]; rfl
  split
  case isTrue h => rw [hcode (beq_iff_eq.mp h)]; rfl
  split
  case isTrue h => rw [hcode (beq_iff_eq.mp h)]; rfl
  split
  case isTrue h =>
    have hescaped := escaped_control h rest
    have hmark : "\\u00".toList = ['\\', 'u', '0', '0'] := rfl
    rw [c.ofNat_toNat] at hescaped
    rw [String.toList_append, hmark, String.toList_ofList]
    exact characters_escaped hescaped n read
  case isFalse h =>
    rw [Char.toString_eq_singleton, String.toList_singleton, List.singleton_append, characters]
    · rw [if_neg h]; rfl
    · exact fun hc => hquote (beq_iff_eq.mpr hc)
    · exact fun hc => hbackslash (beq_iff_eq.mpr hc)

/-- By induction on the characters written. -/
theorem characters_flatMap {cs : List Char} {n : Nat} (hn : cs.length < n) (rest read : List Char) :
    characters n (cs.flatMap (fun c => (escape c).toList) ++ '"' :: rest) (some read) =
      .ok (some (String.ofList (read.reverse ++ cs)), rest) := by
  induction cs generalizing n read with
  | nil =>
    cases n with
    | zero => exact absurd hn (Nat.not_lt_zero _)
    | succ n => simp [characters]
  | cons c cs ih =>
    cases n with
    | zero => exact absurd hn (Nat.not_lt_zero _)
    | succ n =>
      rw [List.flatMap_cons, List.append_assoc, characters_escape, ih (Nat.lt_of_succ_lt_succ hn),
        List.reverse_cons, List.append_assoc, List.singleton_append]

theorem toList_quote_append (text : String) (rest : List Char) :
    (quote text).toList ++ rest =
      '"' :: (text.toList.flatMap (fun c => (escape c).toList) ++ '"' :: rest) := by
  have hfold (cs : List Char) (out : String) :
    (cs.foldl (fun out c => out ++ escape c) out).toList =
      out.toList ++ cs.flatMap fun c => (escape c).toList := by
    induction cs generalizing out with
    | nil => simp
    | cons c cs ih => simp [ih]
  rw [quote, String.toList_append, String.foldl_eq_foldl_toList, hfold]
  simp

/-- A string is read from what is written behind its first quote. -/
theorem string_quote (text : String) (rest : List Char) :
    ∃ body, (quote text).toList ++ rest = '"' :: body ∧ string body = .ok (some text, rest) := by
  refine ⟨_, toList_quote_append text rest, ?_⟩
  have hlength (cs : List Char) : cs.length ≤ (cs.flatMap fun c => (escape c).toList).length := by
    induction cs with
    | nil => exact Nat.zero_le _
    | cons c cs ih =>
      have := List.length_pos_iff.mpr (escape_ne_nil c)
      rw [List.flatMap_cons, List.length_append, List.length_cons]
      omega
  have hfuel := hlength text.toList
  rw [string, characters_flatMap (by rw [List.length_append]; omega),
    List.reverse_nil, List.nil_append, String.ofList_toList]

/-! ## Numbers -/

/-- Behind a value stands nothing, or what goes on with the list or object around it. -/
def Ends (rest : List Char) : Prop := ∀ c ∈ rest.head?, c = ',' ∨ c = ']' ∨ c = '\x7d'

variable {rest : List Char} {negative : Bool} {draft : Draft}

variable {text : List Char}

theorem Ends.head_ne {c : Char} (h : Ends (c :: text)) {d : Char}
    (hd : d ∉ [',', ']', '\x7d']) : c ≠ d := by
  rintro rfl
  rcases h c rfl with rfl | rfl | rfl <;> exact hd (by decide)

/-- What ends a value is no digit, so that numbers stop there. -/
theorem Ends.isDigit_eq_false {c : Char} (h : Ends (c :: text)) : c.isDigit = false := by
  rcases h c rfl with rfl | rfl | rfl <;> decide

theorem takeWhile_append (h : Ends rest) (text : List Char) :
    (text ++ rest).takeWhile Char.isDigit = text.takeWhile Char.isDigit := by
  induction text with
  | nil =>
    cases rest with
    | nil => rfl
    | cons c rest =>
        exact List.takeWhile_cons_of_neg (by rw [h.isDigit_eq_false]; exact Bool.false_ne_true)
  | cons c text ih => rw [List.cons_append, List.takeWhile_cons, List.takeWhile_cons, ih]

theorem dropWhile_append (h : Ends rest) (text : List Char) :
    (text ++ rest).dropWhile Char.isDigit = text.dropWhile Char.isDigit ++ rest := by
  induction text with
  | nil =>
    cases rest with
    | nil => rfl
    | cons c rest =>
        exact List.dropWhile_cons_of_neg (by rw [h.isDigit_eq_false]; exact Bool.false_ne_true)
  | cons c text ih =>
    rw [List.cons_append, List.dropWhile_cons, List.dropWhile_cons, ih]
    split <;> rfl

variable {text r : List Char}

/-- What follows a number does not change how it is read; so for each of its parts. -/
theorem exponent_append {significand : Nat} {power : Int}
    (h : exponent negative significand power text = ⟨draft, some r⟩) (hrest : Ends rest) :
    exponent negative significand power (text ++ rest) = ⟨draft, some (r ++ rest)⟩ := by
  cases text with
  | nil => cases h
  | cons c text =>
    have hsign : splitSign (c :: text ++ rest) =
      ((splitSign (c :: text)).1, (splitSign (c :: text)).2 ++ rest) := by
      rw [List.cons_append]
      unfold splitSign
      split <;> simp_all
    unfold exponent at h ⊢
    rw [hsign]
    dsimp only at h ⊢
    cases htext : (splitSign (c :: text)).2 with
    | nil => rw [htext] at h; cases h
    | cons d digits =>
      rw [htext] at h
      dsimp only [List.cons_append] at h ⊢
      split at h
      · cases h
      · next hd =>
        have htake : (d :: (digits ++ rest)).takeWhile Char.isDigit =
          (d :: digits).takeWhile Char.isDigit :=
          takeWhile_append hrest (d :: digits)
        have hdrop : (d :: (digits ++ rest)).dropWhile Char.isDigit =
          (d :: digits).dropWhile Char.isDigit ++ rest :=
          dropWhile_append hrest (d :: digits)
        rw [if_neg hd, hdrop]
        cases h
        simp only [htake]

theorem afterDigits_cons {significand : Nat} {power : Int} {c : Char} (he : c ≠ 'e')
    (hE : c ≠ 'E') : afterDigits negative significand power (c :: text) =
      ⟨numberDraft negative (floatOf significand power), some (c :: text)⟩ := by
  simp [afterDigits, he, hE]

theorem afterDigits_append {significand : Nat} {power : Int}
    (h : afterDigits negative significand power text = ⟨draft, some r⟩) (hrest : Ends rest) :
    afterDigits negative significand power (text ++ rest) = ⟨draft, some (r ++ rest)⟩ := by
  cases text with
  | nil =>
    cases h
    cases rest with
    | nil => rfl
    | cons c rest => exact afterDigits_cons (hrest.head_ne (by decide)) (hrest.head_ne (by decide))
  | cons c text =>
    rw [List.cons_append]
    by_cases he : c = 'e'
    · subst he
      exact exponent_append h hrest
    by_cases hE : c = 'E'
    · subst hE
      exact exponent_append h hrest
    rw [afterDigits_cons he hE] at h ⊢
    cases h
    rfl

theorem fraction_append {significand : Nat} {power : Int}
    (h : fraction negative significand power text = ⟨draft, some r⟩) (hrest : Ends rest) :
    fraction negative significand power (text ++ rest) = ⟨draft, some (r ++ rest)⟩ := by
  unfold fraction at h ⊢
  rw [takeWhile_append hrest, dropWhile_append hrest]
  dsimp only at h ⊢
  split at h
  · cases h
  · next hdigits =>
    rw [if_neg hdigits]
    exact afterDigits_append h hrest

theorem head?_append_beq (hrest : Ends rest) (text : List Char) {d : Char}
    (hd : d ∉ [',', ']', '\x7d']) : ((text ++ rest).head? == some d) = (text.head? == some d) := by
  cases text with
  | cons c text => rfl
  | nil =>
    cases rest with
    | nil => rfl
    | cons c rest => simpa using hrest.head_ne hd

theorem afterWhole_of_ne {significand dropped : Nat} (h : text.head? ≠ some '.') :
    afterWhole negative significand dropped text =
      if dropped = 0 ∧ !(text.head? == some 'e' || text.head? == some 'E') then
        if !negative then ⟨.int significand, some text⟩
        else if 0 < significand ∧ Word.fits (-significand) then
          ⟨.int (-(significand : Int)), some text⟩
        else ⟨.float (-(Float.ofNat significand)), some text⟩
      else afterDigits negative significand dropped text := by
  unfold afterWhole
  split
  · exact absurd rfl h
  · rfl

theorem afterWhole_append {significand dropped : Nat}
    (h : afterWhole negative significand dropped text = ⟨draft, some r⟩) (hrest : Ends rest) :
    afterWhole negative significand dropped (text ++ rest) = ⟨draft, some (r ++ rest)⟩ := by
  -- No point and no exponent mark can come with the rest, so both texts take the same branch.
  have hhead {d : Char} (hd : d ∉ [',', ']', '\x7d']) := head?_append_beq hrest text hd
  by_cases hpoint : text.head? = some '.'
  · obtain ⟨text, rfl⟩ := List.head?_eq_some_iff.mp hpoint
    exact fraction_append h hrest
  have hpoint' : (text ++ rest).head? ≠ some '.' := by
    rw [← bne_iff_ne, bne, hhead (by decide), ← bne]
    exact bne_iff_ne.mpr hpoint
  rw [afterWhole_of_ne hpoint] at h
  rw [afterWhole_of_ne hpoint']
  simp only [hhead (d := 'e') (by decide), hhead (d := 'E') (by decide)]
  split at h
  · next hplain =>
    rw [if_pos hplain]
    split at h
    · next hsign => rw [if_pos hsign]; cases h; rfl
    · next hsign =>
      rw [if_neg hsign]
      split at h
      · next hfits => rw [if_pos hfits]; cases h; rfl
      · next hfits => rw [if_neg hfits]; cases h; rfl
  · next hplain =>
    rw [if_neg hplain]
    exact afterDigits_append h hrest

/-- A number is the same whatever stands behind it. -/
theorem number_append (h : number negative text = ⟨draft, some r⟩) (hrest : Ends rest) :
    number negative (text ++ rest) = ⟨draft, some (r ++ rest)⟩ := by
  unfold number at h ⊢
  rw [takeWhile_append hrest, dropWhile_append hrest]
  dsimp only at h ⊢
  generalize text.takeWhile Char.isDigit = digits at h ⊢
  split at h
  · cases h
  · cases h
  · exact afterWhole_append h hrest

/-- Digits are taken in to the last one if their number is not too large. -/
theorem takeDigits_eq {digits : List Char} {n : Nat}
    (h : Nat.ofDigitChars 10 digits n ≤ wordLimit) :
    takeDigits n digits = (Nat.ofDigitChars 10 digits n, digits.length) := by
  induction digits generalizing n with
  | nil => rfl
  | cons d digits ih =>
    -- Later digits only make the number larger, so this one does not go beyond the limit either.
    have hnext : 10 * n + digitValue d ≤ Nat.ofDigitChars 10 digits (10 * n + digitValue d) := by
      rw [Nat.ofDigitChars_eq_ofDigitChars_zero]
      have hpow : 1 ≤ 10 ^ digits.length := Nat.one_le_pow _ _ (by decide)
      exact Nat.le_trans (Nat.le_mul_of_pos_left _ hpow) (Nat.le_add_right _ _)
    rw [Nat.ofDigitChars_cons] at h ⊢
    have hlimit : ¬ wordLimit < 10 * n + digitValue d := Nat.not_lt.mpr (Nat.le_trans hnext h)
    have hrest : takeDigits (10 * n + digitValue d) digits =
        (Nat.ofDigitChars 10 digits (10 * n + digitValue d), digits.length) := ih h
    unfold takeDigits
    dsimp only
    rw [if_neg hlimit, hrest]
    rfl

/-- Only zero is written with a leading zero. -/
theorem eq_zero_of_head?_toDigits {n : Nat} (h : (Nat.toDigits 10 n).head? = some '0') : n = 0 := by
  induction n using Nat.strongRecOn with
  | ind n ih =>
    by_cases hn : n < 10
    · rw [Nat.toDigits_of_lt_base hn, List.head?_cons, Option.some.injEq] at h
      exact Nat.digitChar_eq_zero.mp h
    · rw [Nat.toDigits_of_base_le (by decide) (by omega),
        List.head?_append_of_ne_nil _ Nat.toDigits_ne_nil] at h
      have := ih (n / 10) (by omega) h
      omega

/-- The digits of a number are read as far as the sign decides. -/
theorem number_toDigits {n : Nat} (hn : n ≤ wordLimit) :
    number negative (Nat.toDigits 10 n) = afterWhole negative n 0 [] := by
  have hdigit : ∀ c ∈ Nat.toDigits 10 n, c.isDigit = true :=
    fun c hc => Nat.isDigit_of_mem_toDigits (by decide) (Nat.le_refl 10) hc
  have htake : takeDigits 0 (Nat.toDigits 10 n) = (n, (Nat.toDigits 10 n).length) := by
    rw [takeDigits_eq (by rwa [Nat.ofDigitChars_ten_toDigits]), Nat.ofDigitChars_ten_toDigits]
  unfold number
  rw [List.takeWhile_eq_self_iff.mpr hdigit, List.dropWhile_eq_nil_iff.mpr hdigit]
  dsimp only
  split
  · next hnil => exact absurd hnil Nat.toDigits_ne_nil
  · next hzero =>
    -- Only zero starts with a zero, and it has no other digit.
    have hn : n = 0 := eq_zero_of_head?_toDigits (by rw [hzero]; rfl)
    subst hn
    cases hzero
  · rw [htake, Nat.sub_self]

/-- Blanks are skipped as far as the text goes, unless it is all blank. -/
theorem skipBlank_append (h : skipBlank text ≠ []) :
    skipBlank (text ++ rest) = skipBlank text ++ rest := by
  rw [skipBlank, List.dropWhile_append, if_neg (by rwa [List.isEmpty_iff])]
  rfl

theorem skipBlank_cons {c : Char} (h : isBlank c = false) (text : List Char) :
    skipBlank (c :: text) = c :: text :=
  List.dropWhile_cons_of_neg (by rw [h]; exact Bool.false_ne_true)

/-- Blanks before a value do not count. -/
theorem value_skipBlank (fuel : Nat) (text : List Char) :
    value fuel (skipBlank text) = value fuel text := by
  cases fuel with
  | zero => rfl
  | succ fuel => rw [value, value, skipBlank, skipBlank, List.dropWhile_idempotent]

theorem value_digit {c : Char} (h : c.isDigit = true) (fuel : Nat) (text : List Char) :
    value (fuel + 1) (c :: text) = number false (c :: text) := by
  have hne {d : Char} (hd : d.isDigit = false) : c ≠ d := by
    rintro rfl
    rw [h] at hd
    exact Bool.noConfusion hd
  have hblank : isBlank c = false := by
    have hspace : c ≠ ' ' := hne (by decide)
    have hline : c ≠ '\n' := hne (by decide)
    have htab : c ≠ '\t' := hne (by decide)
    have hreturn : c ≠ '\r' := hne (by decide)
    simp [isBlank, hspace, hline, htab, hreturn]
  rw [value, skipBlank_cons hblank]
  split
  · next heq => cases heq
  iterate 7
    · next heq => cases heq; exact absurd h (by decide)
  · next heq => cases heq; exact if_pos h

/-- An integer of 64 bits, with or without sign, is read from its text. -/
theorem value_int {n : Int} (hlow : Word.least ≤ n) (hhigh : n ≤ wordLimit) :
    value 1 (toString n).toList = ⟨.int n, some []⟩ := by
  unfold Word.least at hlow
  unfold wordLimit at hhigh
  rw [Int.toString_eq_repr, Int.repr_eq_if]
  split
  · next hsign =>
    have hnat : (n.toNat : Int) = n := Int.toNat_of_nonneg hsign
    have hread : number false (Nat.toDigits 10 n.toNat) = afterWhole false n.toNat 0 [] :=
      number_toDigits (by unfold wordLimit; omega)
    rw [Nat.repr_eq_ofList_toDigits, String.toList_ofList]
    cases hdigits : Nat.toDigits 10 n.toNat with
    | nil => exact absurd hdigits Nat.toDigits_ne_nil
    | cons c digits =>
      have hc : c.isDigit = true :=
        Nat.isDigit_of_mem_toDigits (by decide) (Nat.le_refl 10) (hdigits ▸ List.mem_cons_self)
      rw [value_digit hc, ← hdigits, hread]
      exact congrArg (fun k => (⟨.int k, some []⟩ : Reading)) hnat
  · next hsign =>
    have hnat : ((-n).toNat : Int) = -n := Int.toNat_of_nonneg (by omega)
    have hread : number true (Nat.toDigits 10 (-n).toNat) = afterWhole true (-n).toNat 0 [] :=
      number_toDigits (by unfold wordLimit; omega)
    have hfits : 0 < (-n).toNat ∧ Word.fits (-((-n).toNat : Int)) = true := by
      rw [hnat, Int.neg_neg, Word.fits, Bool.and_eq_true, decide_eq_true_eq, decide_eq_true_eq]
      exact ⟨by omega, hlow, by unfold Word.greatest; omega⟩
    have hminus : "-".toList = ['-'] := rfl
    rw [Nat.repr_eq_ofList_toDigits, String.toList_append, hminus, String.toList_ofList]
    refine hread.trans ?_
    rw [afterWhole_of_ne (by simp), if_pos (by simp), if_neg (by simp), if_pos hfits,
      hnat, Int.neg_neg]

theorem word_eq_some {v : Draft} {expected text r : List Char}
    (h : word v expected text = ⟨draft, some r⟩) : draft = v := by
  induction expected generalizing text with
  | nil => cases h; rfl
  | cons e expected ih =>
    cases text with
    | nil => cases h
    | cons c text =>
      rw [word] at h
      split at h
      · exact ih h
      · cases h

def isNumber : Draft → Bool
  | .int _ | .float _ => true
  | _ => false

/-- What is read as a number starts with a minus or a digit. -/
theorem sign_or_digit {c : Char} (hc : isBlank c = false)
    (h : value 1 (c :: text) = ⟨draft, some r⟩) (hnumber : isNumber draft = true) :
      c = '-' ∨ c.isDigit = true := by
  rw [value, skipBlank_cons hc] at h
  split at h
  · cases h
  · cases word_eq_some h; cases hnumber
  · cases word_eq_some h; cases hnumber
  · cases word_eq_some h; cases hnumber
  · split at h <;> cases h <;> cases hnumber
  · cases h
  · cases h
  · next heq => cases heq; exact .inl rfl
  · next heq =>
    cases heq
    split at h
    · next hdigit => exact .inr hdigit
    · cases h

/-- A number is the same whatever stands behind it, and however long the text may be. -/
theorem value_append (h : value 1 text = ⟨draft, some r⟩) (hnumber : isNumber draft = true)
    (hrest : Ends rest) (fuel : Nat) :
      value (fuel + 1) (text ++ rest) = ⟨draft, some (r ++ rest)⟩ := by
  rw [← value_skipBlank] at h ⊢
  cases htext : skipBlank text with
  | nil => rw [htext] at h; cases h
  | cons c body =>
    have hc : isBlank c = false := by
      have hhead := List.head?_dropWhile_not isBlank text
      rw [show text.dropWhile isBlank = c :: body from htext] at hhead
      simpa using hhead
    rw [skipBlank_append (by rw [htext]; exact List.cons_ne_nil c body), htext]
    rw [htext] at h
    rcases sign_or_digit hc h hnumber with rfl | hdigit
    · exact number_append h hrest
    · rw [value_digit hdigit] at h
      rw [List.cons_append, value_digit hdigit]
      exact number_append h hrest

/-! ## Documents -/

theorem value_text (text : String) (rest : List Char) (fuel : Nat) :
    value (fuel + 1) ((quote text).toList ++ rest) = ⟨.text text, some rest⟩ := by
  obtain ⟨body, hbody, hread⟩ := string_quote text rest
  rw [hbody, value, skipBlank_cons (by decide)]
  simp only [hread]

/-- The end of a list is no value. -/
theorem head_of_value {fuel : Nat} (h : value fuel text = ⟨draft, some r⟩) :
    ∃ c body, skipBlank text = c :: body ∧ c ≠ ']' := by
  cases fuel with
  | zero => cases h
  | succ fuel =>
    rw [value] at h
    cases htext : skipBlank text with
    | nil => rw [htext] at h; cases h
    | cons c body =>
      refine ⟨c, body, rfl, ?_⟩
      rintro rfl
      rw [htext] at h
      cases h

variable {fuel : Nat} {text r : List Char}

/-- One step of reading a list: its first item, and then the items after a comma. -/
theorem items_first {read : List Draft} (h : value fuel text = ⟨draft, some r⟩) :
    items (fuel + 1) true text read = items fuel false r (draft :: read) := by
  obtain ⟨c, body, htext, hc⟩ := head_of_value h
  rw [← value_skipBlank, htext] at h
  rw [items, htext]
  simp only [h, ite_true]

theorem items_next {read : List Draft} (h : value fuel text = ⟨draft, some r⟩) :
    items (fuel + 1) false (',' :: text) read = items fuel false r (draft :: read) := by
  obtain ⟨c, body, htext, hc⟩ := head_of_value h
  rw [← value_skipBlank, htext] at h
  rw [items, skipBlank_cons (by decide)]
  simp [htext, hc, h]

theorem items_close (fuel : Nat) (first : Bool) (read : List Draft) :
    items (fuel + 1) first (']' :: rest) read = ⟨.list read.reverse none, some rest⟩ := by
  rw [items, skipBlank_cons (by decide)]
  rfl

/-- One step of reading an object. -/
theorem fields_first {name : String} {read : List (String × Draft)}
    (h : value fuel text = ⟨draft, some r⟩) :
    fields (fuel + 1) true ((quote name).toList ++ ':' :: text) read =
      fields fuel false r ((name, draft) :: read) := by
  obtain ⟨body, hbody, hread⟩ := string_quote name (':' :: text)
  rw [hbody, fields, skipBlank_cons (by decide)]
  simp [hread, skipBlank_cons (c := ':') (by decide), h]

theorem fields_next {name : String} {read : List (String × Draft)}
    (h : value fuel text = ⟨draft, some r⟩) :
    fields (fuel + 1) false (',' :: ((quote name).toList ++ ':' :: text)) read =
      fields fuel false r ((name, draft) :: read) := by
  obtain ⟨body, hbody, hread⟩ := string_quote name (':' :: text)
  rw [hbody, fields, skipBlank_cons (by decide)]
  simp [skipBlank_cons (c := '"') (by decide), hread, skipBlank_cons (c := ':') (by decide), h]

theorem fields_close (fuel : Nat) (first : Bool) (read : List (String × Draft)) :
    fields (fuel + 1) first ('\x7d' :: rest) read = ⟨.object read.reverse none, some rest⟩ := by
  rw [fields, skipBlank_cons (by decide)]
  rfl

end Reading

namespace Json

mutual

/-- The documents inside a document that are neither lists nor objects. -/
def leaves : Json → List Json
  | .list items => leavesItems items
  | .object fields => leavesFields fields
  | leaf => [leaf]

def leavesItems : List Json → List Json
  | [] => []
  | item :: rest => leaves item ++ leavesItems rest

def leavesFields : List (String × Json) → List Json
  | [] => []
  | (_, value) :: rest => leaves value ++ leavesFields rest

end

def float? : Json → Option Float
  | .float value => some value
  | _ => none

/-- The floats of a document. -/
def floats (json : Json) : List Float := json.leaves.filterMap float?

/-- The text of a float is read to its end, and as that float. -/
def Exact (value : Float) : Prop :=
  Reading.value 1 (render (.float value)).toList = ⟨.float value, some []⟩

/-- What is read back as it was written: integers of 64 bits, floats with exact
    digits, and all else. -/
def Legible : Json → Prop
  | .int value => Word.least ≤ value ∧ value ≤ Reading.wordLimit
  | .float value => Exact value
  | _ => True

/-- Separators stand before all items but the first. -/
theorem intercalate_cons_flatMap (sep : Char) (first : List Char) (rest : List (List Char)) :
    [sep].intercalate (first :: rest) = first ++ rest.flatMap (sep :: ·) := by
  induction rest generalizing first with
  | nil => simp
  | cons next rest ih =>
      rw [List.intercalate_cons_cons, ih, List.flatMap_cons, List.append_assoc]; rfl

/-- The text of the items behind another one. -/
def moreItems (items : List Json) : List Char := items.flatMap fun item =>
    ',' :: (render item).toList

/-- The text of the fields behind another one. -/
def moreFields (fields : List (String × Json)) : List Char :=
  fields.flatMap fun field => ',' :: ((quote field.1).toList ++ ':' :: (render field.2).toList)

theorem toList_render_list (item : Json) (items : List Json) (rest : List Char) :
    (render (.list (item :: items))).toList ++ rest =
      '[' :: ((render item).toList ++ (moreItems items ++ ']' :: rest)) := by
  have hmap : renderItems items = items.map render := by
    induction items with
    | nil => rfl
    | cons item items ih => rw [renderItems, ih, List.map_cons]
  have hcomma : ",".toList = [','] := rfl
  have hopen : "[".toList = ['['] := rfl
  have hclose : "]".toList = [']'] := rfl
  rw [render, renderItems, hmap, String.toList_append, String.toList_append,
    String.toList_intercalate, hcomma, hopen,
    hclose, List.map_cons, intercalate_cons_flatMap, List.map_map, List.flatMap_map]
  simp [moreItems]

theorem toList_render_object (field : String × Json) (fields : List (String × Json))
    (rest : List Char) : (render (.object (field :: fields))).toList ++ rest =
      '\x7b' :: ((quote field.1).toList ++
        ':' :: ((render field.2).toList ++ (moreFields fields ++ '\x7d' :: rest))) := by
  have hmap : renderFields fields = fields.map fun field =>
    quote field.1 ++ ":" ++ render field.2 := by
    induction fields with
    | nil => rfl
    | cons field fields ih => rw [renderFields, ih, List.map_cons]
  have hcomma : ",".toList = [','] := rfl
  have hcolon : ":".toList = [':'] := rfl
  have hopen : "\x7b".toList = ['\x7b'] := rfl
  have hclose : "\x7d".toList = ['\x7d'] := rfl
  rw [render, renderFields, hmap, String.toList_append, String.toList_append,
    String.toList_intercalate, hcomma, hopen,
    hclose, List.map_cons, intercalate_cons_flatMap, List.map_map, List.flatMap_map]
  simp [moreFields, hcolon]

end Json

namespace Reading

open Json (leavesItems leavesFields moreItems moreFields quote)

/-- After an item comes a comma or the end, and both end it. -/
theorem ends_moreItems (items : List Json) (rest : List Char) :
    Ends (moreItems items ++ ']' :: rest) := by
  cases items with
  | nil => exact fun c hc => .inr (.inl (Option.some.inj hc).symm)
  | cons item items => exact fun c hc => .inl (Option.some.inj hc).symm

theorem ends_moreFields (fields : List (String × Json)) (rest : List Char) :
    Ends (moreFields fields ++ '\x7d' :: rest) := by
  cases fields with
  | nil => exact fun c hc => .inr (.inr (Option.some.inj hc).symm)
  | cons field fields => exact fun c hc => .inl (Option.some.inj hc).symm

-- The induction is on the document.  Each item takes one of the fuel, but at least one character of
-- the text, so it is enough that there is more fuel than text.

mutual

/-- A document is read from its text, whatever stands behind it. -/
theorem value_render : ∀ {json : Json} {fuel : Nat} {rest : List Char},
    (∀ leaf ∈ json.leaves, leaf.Legible) → Ends rest → json.render.toList.length < fuel →
    value fuel (json.render.toList ++ rest) = ⟨.ofJson json, some rest⟩
  | .null, fuel + 1, rest, _, _, _ => rfl
  | .bool true, fuel + 1, rest, _, _, _ => rfl
  | .bool false, fuel + 1, rest, _, _, _ => rfl
  | .int n, fuel + 1, rest, h, hrest, _ => by
    have hn : (Json.int n).Legible := h _ List.mem_cons_self
    exact value_append (value_int hn.1 hn.2) rfl hrest fuel
  | .float x, fuel + 1, rest, h, hrest, _ => by
    have hx : (Json.float x).Legible := h _ List.mem_cons_self
    exact value_append hx rfl hrest fuel
  | .text text, fuel + 1, rest, _, _, _ => value_text text rest fuel
  | .list [], fuel + 1, rest, _, _, hfuel => by
    cases fuel with
    | zero => exact absurd hfuel (by decide)
    | succ fuel => exact items_close fuel true []
  | .list (item :: items), fuel + 1, rest, h, _, hfuel => by
    have hlength := congrArg List.length (Json.toList_render_list item items [])
    simp only [List.length_cons, List.length_append, List.length_nil] at hlength
    obtain ⟨hitem, hitems⟩ := List.forall_mem_append.mp h
    cases fuel with
    | zero => omega
    | succ fuel =>
      have hfirst : value fuel (item.render.toList ++ (moreItems items ++ ']' :: rest)) =
        ⟨.ofJson item, some _⟩ :=
        value_render hitem (ends_moreItems items rest) (by omega)
      rw [Json.toList_render_list]
      exact (items_first hfirst).trans (items_render hitems (by omega))
  | .object [], fuel + 1, rest, _, _, hfuel => by
    cases fuel with
    | zero => exact absurd hfuel (by decide)
    | succ fuel => exact fields_close fuel true []
  | .object (field :: fields), fuel + 1, rest, h, _, hfuel => by
    have hlength := congrArg List.length (Json.toList_render_object field fields [])
    simp only [List.length_cons, List.length_append, List.length_nil] at hlength
    obtain ⟨hfield, hfields⟩ := List.forall_mem_append.mp h
    cases fuel with
    | zero => omega
    | succ fuel =>
      have hfirst : value fuel (field.2.render.toList ++ (moreFields fields ++ '\x7d' :: rest)) =
          ⟨.ofJson field.2, some _⟩ := value_render hfield (ends_moreFields fields rest) (by omega)
      rw [Json.toList_render_object]
      exact (fields_first hfirst).trans (fields_render hfields (by omega))

theorem items_render : ∀ {items : List Json} {fuel : Nat} {rest : List Char} {read : List Draft},
    (∀ leaf ∈ leavesItems items, leaf.Legible) → (moreItems items).length < fuel →
    Reading.items fuel false (moreItems items ++ ']' :: rest) read =
      ⟨.list (read.reverse ++ Draft.ofItems items) none, some rest⟩
  | [], fuel + 1, rest, read, _, _ => by
    rw [Draft.ofItems, List.append_nil]
    exact items_close fuel false read
  | item :: items, fuel + 1, rest, read, h, hfuel => by
    obtain ⟨hitem, hitems⟩ := List.forall_mem_append.mp h
    have hmore : moreItems (item :: items) = ',' :: item.render.toList ++ moreItems items :=
      List.flatMap_cons ..
    rw [hmore] at hfuel ⊢
    simp only [List.length_append, List.length_cons] at hfuel
    have hnext : value fuel (item.render.toList ++ (moreItems items ++ ']' :: rest)) =
      ⟨.ofJson item, some _⟩ :=
      value_render hitem (ends_moreItems items rest) (by omega)
    rw [List.append_assoc, List.cons_append, items_next hnext,
      items_render hitems (by omega), Draft.ofItems,
      List.reverse_cons, List.append_assoc, List.singleton_append]

theorem fields_render :
    ∀ {fields : List (String × Json)} {fuel : Nat} {rest : List Char} {read :
    List (String × Draft)},
    (∀ leaf ∈ leavesFields fields, leaf.Legible) → (moreFields fields).length < fuel →
    Reading.fields fuel false (moreFields fields ++ '\x7d' :: rest) read =
      ⟨.object (read.reverse ++ Draft.ofFields fields) none, some rest⟩
  | [], fuel + 1, rest, read, _, _ => by
    rw [Draft.ofFields, List.append_nil]
    exact fields_close fuel false read
  | field :: fields, fuel + 1, rest, read, h, hfuel => by
    obtain ⟨hfield, hfields⟩ := List.forall_mem_append.mp h
    have hmore : moreFields (field :: fields) ++ '\x7d' :: rest = ',' :: ((quote field.1).toList ++
        ':' :: (field.2.render.toList ++ (moreFields fields ++ '\x7d' :: rest))) := by
      simp [moreFields]
    have hlength := congrArg List.length hmore
    simp only [List.length_append, List.length_cons] at hlength
    have hnext : value fuel (field.2.render.toList ++ (moreFields fields ++ '\x7d' :: rest)) =
        ⟨.ofJson field.2, some _⟩ := value_render hfield (ends_moreFields fields rest) (by omega)
    rw [hmore, fields_next hnext, fields_render hfields (by omega), Draft.ofFields,
      List.reverse_cons, List.append_assoc, List.singleton_append]

end

end Reading

/-- A document is read back from its text if its leaves are. -/
theorem Document.read_render {json : Json} (h : ∀ leaf ∈ json.leaves, leaf.Legible) :
    Document.read json.render = ⟨.ofJson json, none⟩ := by
  have hends : Reading.Ends [] := fun c hc => by cases hc
  have hread := Reading.value_render h hends (Nat.lt_succ_self _)
  rw [List.append_nil] at hread
  unfold Document.read
  dsimp only
  rw [hread]
  rfl

/-! ## Ranges -/

namespace Json

/-- Every integer of a document has 64 bits. -/
def Ranged (json : Json) : Prop := ∀ value, .int value ∈ json.leaves → (int value).Legible

variable {α : Type} {items : List Json} {fields : List (String × Json)}

theorem leavesItems_eq_flatMap (items : List Json) : leavesItems items = items.flatMap leaves := by
  induction items with
  | nil => rfl
  | cons item rest ih => exact congrArg (item.leaves ++ ·) ih

theorem leavesFields_eq_flatMap (fields : List (String × Json)) :
    leavesFields fields = fields.flatMap fun field => leaves field.2 := by
  induction fields with
  | nil => rfl
  | cons field rest ih => exact congrArg (field.2.leaves ++ ·) ih

theorem ranged_leaf {json : Json} (hleaf : json.leaves = [json])
    (hint : ∀ value, .int value ≠ json) : json.Ranged := by
  intro value hvalue
  rw [hleaf, List.mem_singleton] at hvalue
  exact absurd hvalue (hint value)

@[simp] theorem ranged_null : Ranged .null := ranged_leaf rfl nofun

@[simp] theorem ranged_bool (value : Bool) : Ranged (.bool value) := ranged_leaf rfl nofun

@[simp] theorem ranged_float (value : Float) : Ranged (.float value) := ranged_leaf rfl nofun

@[simp] theorem ranged_text (value : String) : Ranged (.text value) := ranged_leaf rfl nofun

@[simp] theorem ranged_int {value : Int} : Ranged (.int value) ↔ (int value).Legible := by
  constructor
  · exact fun h => h value List.mem_cons_self
  · intro h other hother
    rw [List.mem_singleton.mp hother]
    exact h

@[simp] theorem ranged_list : Ranged (.list items) ↔ ∀ item ∈ items, item.Ranged := by
  simp only [Ranged, leaves, leavesItems_eq_flatMap, List.mem_flatMap]
  grind

@[simp] theorem ranged_object : Ranged (.object fields) ↔ ∀ field ∈ fields, field.2.Ranged := by
  simp only [Ranged, leaves, leavesFields_eq_flatMap, List.mem_flatMap]
  grind

theorem ranged_append {more : List (String × Json)} :
    Ranged (.object (fields ++ more)) ↔ Ranged (.object fields) ∧ Ranged (.object more) := by
  simp only [ranged_object, List.forall_mem_append]

@[simp] theorem ranged_ofOption {write : α → Json} {value : Option α} :
    Ranged (.ofOption write value) ↔ ∀ a ∈ value, (write a).Ranged := by
  cases value <;> simp [ofOption]

@[simp] theorem ranged_ofFloat (value : Float) : Ranged (.ofFloat value) := by
  unfold ofFloat
  split <;> simp

theorem ranged_ofNat {value : Nat} (h : value < 2 ^ 64) : Ranged (.ofNat value) := by
  simp only [ofNat, ranged_int, Legible, Word.least, Reading.wordLimit]
  omega

theorem ranged_word (value : Int64) : Ranged (.int value.toInt) := by
  have hlow : Word.least ≤ value.toInt := value.le_toInt
  have hhigh : value.toInt ≤ Word.greatest := value.toInt_le
  have hgreatest : Word.greatest ≤ Reading.wordLimit := by decide
  exact ranged_int.mpr ⟨hlow, Int.le_trans hhigh hgreatest⟩

/-- The leaves of a document are legible if its integers and floats are. -/
theorem legible_of_mem_leaves {json : Json} (hranged : json.Ranged)
    (hfloats : ∀ value ∈ json.floats, Exact value) : ∀ leaf ∈ json.leaves, leaf.Legible := by
  intro leaf hleaf
  cases leaf with
  | int value => exact hranged value hleaf
  | float value => exact hfloats value (List.mem_filterMap.mpr ⟨_, hleaf, rfl⟩)
  | _ => exact trivial

end Json

end CompositeGraph

import Mathlib.Data.List.Basic
import Mathlib.Data.List.DropRight
import Mathlib.Data.List.TakeWhile
import Mathlib.Data.BitVec

/-!
# Scanning of text

The conversions of `fscanf` and `sscanf` for words and unsigned decimals, and `fgets`, on
the characters that are still to be read; a character stands for one byte. A conversion
takes the longest item it can and leaves the rest; a format stops at the first conversion
that fails. A number that does not fit its type is undefined behaviour.
-/

namespace OsSim.TextScanning

/-- `isspace` in the C locale. -/
def isSpace (c : Char) : Bool := c == ' ' || (decide (9 ≤ c.toNat) && decide (c.toNat ≤ 13))

/-- White space only. -/
def Blank (s : List Char) : Prop := ∀ c ∈ s, isSpace c = true

/-- The text behind its leading white space. -/
def skipSpace (s : List Char) : List Char := s.dropWhile isSpace

/-- What `%s` takes, and the text behind it; nothing at the end of the text. -/
def scanWord (s : List Char) : Option (List Char × List Char) :=
  match skipSpace s with
  | [] => none
  | c :: t => some ((c :: t).takeWhile (!isSpace ·), (c :: t).dropWhile (!isSpace ·))

/-- An optional sign: whether it is a minus, and the text behind it. -/
def scanSign : List Char → Bool × List Char
  | [] => (false, [])
  | c :: s => if c = '-' then (true, s) else if c = '+' then (false, s) else (false, c :: s)

/-- How the conversion of an unsigned decimal can end. -/
inductive Conversion (w : ℕ)
  /-- No digit; a sign is read nevertheless. -/
  | failed (rest : List Char)
  /-- A number out of range. -/
  | overflow
  /-- A number, negated when its sign is a minus. -/
  | value (v : BitVec w) (rest : List Char)

/-- The conversion of `%u` and `%lu` for an object of `w` bits. -/
def scanUnsigned (w : ℕ) (s : List Char) : Conversion w :=
  let t := scanSign (skipSpace s)
  let ds := t.2.takeWhile Char.isDigit
  let rest := t.2.dropWhile Char.isDigit
  if ds = [] then .failed t.2
  else if Nat.ofDigitChars 10 ds 0 < 2 ^ w then
    let v := BitVec.ofNat w (Nat.ofDigitChars 10 ds 0)
    .value (if t.1 then -v else v) rest
  else .overflow

/-- What a format consists of. -/
inductive Directive
  /-- White space, for any white space. -/
  | space
  /-- An unsigned decimal. -/
  | unsigned
  deriving DecidableEq

/-- The values a format assigns, in order, and the text that is left; none when the
behaviour is undefined. -/
def scanf (w : ℕ) : List Directive → List Char → Option (List (BitVec w) × List Char)
  | [], s => some ([], s)
  | .space :: fmt, s => scanf w fmt (skipSpace s)
  | .unsigned :: fmt, s =>
    match scanUnsigned w s with
    | .failed rest => some ([], rest)
    | .overflow => none
    | .value v rest => (scanf w fmt rest).map fun r => (v :: r.1, r.2)

/-- The line that `fgets` reads, up to so many characters, and the text behind it. -/
def fgets : ℕ → List Char → List Char × List Char
  | 0, s => ([], s)
  | _ + 1, [] => ([], [])
  | n + 1, c :: s => if c = '\n' then ([c], s) else (c :: (fgets n s).1, (fgets n s).2)

/-- The string in a buffer, up to the null character. -/
def cString (s : List Char) : List Char := s.takeWhile (· != '\x00')

/-! ## White space -/

/-- No digit is white space. -/
theorem isSpace_of_isDigit {c : Char} (h : c.isDigit = true) : isSpace c = false := by
  simp only [Char.isDigit, Bool.and_eq_true, decide_eq_true_eq] at h
  have hlo : 48 ≤ c.toNat := h.1
  have hne : c ≠ ' ' := by
    rintro rfl
    exact absurd hlo (by decide)
  simp only [isSpace, Bool.or_eq_false_iff, beq_eq_false_iff_ne, Bool.and_eq_false_iff,
    decide_eq_false_iff_not]
  exact ⟨hne, Or.inr (by omega)⟩

/-- Leading white space does not matter. -/
theorem skipSpace_append {sp : List Char} (hsp : Blank sp) (s : List Char) :
    skipSpace (sp ++ s) = skipSpace s := List.dropWhile_append_of_pos hsp

/-- Leading white space is skipped at once. -/
theorem skipSpace_skipSpace (s : List Char) : skipSpace (skipSpace s) = skipSpace s :=
  List.dropWhile_idempotent _ _

/-- Text that starts with something else is not skipped. -/
theorem skipSpace_cons {c : Char} (hc : isSpace c = false) (s : List Char) :
    skipSpace (c :: s) = c :: s := by
  unfold skipSpace
  rw [List.dropWhile_cons_of_neg (by rw [hc]; exact Bool.false_ne_true)]

/-- The end of the text, or white space: where a word ends. -/
def Ends (s : List Char) : Prop := ∀ c ∈ s.head?, isSpace c = true

/-- White space ends a word. -/
theorem Blank.ends {s : List Char} (h : Blank s) : Ends s :=
  fun c hc => h c (List.mem_of_mem_head? hc)

/-- Text that is not empty ends a word for all that may follow. -/
theorem Ends.append {s t : List Char} (hs : Ends s) (ht : s = [] → Ends t) :
    Ends (s ++ t) := by
  cases s with
  | nil => exact ht rfl
  | cons c s => exact hs

/-- No text at all is white space. -/
theorem blank_nil : Blank [] := fun _ hc => absurd hc List.not_mem_nil

/-- A single white-space character is white space. -/
theorem blank_singleton {c : Char} (hc : isSpace c = true) : Blank [c] := by
  intro d hd
  rw [List.mem_singleton.mp hd]
  exact hc

/-- Text that starts with white space ends a word. -/
theorem ends_cons {c : Char} (hc : isSpace c = true) (s : List Char) : Ends (c :: s) := by
  intro d hd
  rw [← Option.some.inj hd]
  exact hc

/-! ## Words and numbers -/

/-- The longest item of some characters ends before the first other one. -/
theorem munch {p : Char → Bool} {item rest : List Char} (hitem : ∀ c ∈ item, p c = true)
    (hrest : ∀ c ∈ rest.head?, p c = false) :
    (item ++ rest).takeWhile p = item ∧ (item ++ rest).dropWhile p = rest := by
  rw [List.takeWhile_append_of_pos hitem, List.dropWhile_append_of_pos hitem]
  cases rest with
  | nil => exact ⟨List.append_nil _, rfl⟩
  | cons c rest =>
    have hc : ¬p c = true := by
      rw [hrest c rfl]
      exact Bool.false_ne_true
    rw [List.takeWhile_cons_of_neg hc, List.dropWhile_cons_of_neg hc, List.append_nil]
    exact ⟨rfl, rfl⟩

/-- `%s` takes a word up to its end. -/
theorem scanWord_append {sp word rest : List Char} (hsp : Blank sp) (hne : word ≠ [])
    (hword : ∀ c ∈ word, isSpace c = false) (hrest : Ends rest) :
    scanWord (sp ++ (word ++ rest)) = some (word, rest) := by
  obtain ⟨c, t, rfl⟩ := List.exists_cons_of_ne_nil hne
  have hskip : skipSpace (sp ++ (c :: t ++ rest)) = c :: (t ++ rest) := by
    rw [skipSpace_append hsp]
    exact skipSpace_cons (hword c List.mem_cons_self) _
  have hitem : ∀ d ∈ c :: t, (!isSpace d) = true := by
    intro d hd
    rw [hword d hd]
    rfl
  have hend : ∀ d ∈ rest.head?, (!isSpace d) = false := by
    intro d hd
    rw [hrest d hd]
    rfl
  obtain ⟨htake, hdrop⟩ := munch hitem hend
  unfold scanWord
  rw [hskip]
  dsimp only
  rw [← List.cons_append, htake, hdrop]

/-- Digits of a number that fits. -/
structure Digits (w : ℕ) (ds : List Char) : Prop where
  /-- There is a digit. -/
  ne_nil : ds ≠ []
  /-- There is nothing else. -/
  isDigit : ∀ c ∈ ds, c.isDigit = true
  /-- The number is in range. -/
  lt : Nat.ofDigitChars 10 ds 0 < 2 ^ w

/-- How a value may be written: digits, after an optional sign. -/
inductive Numeral (w : ℕ) : List Char → BitVec w → Prop
  /-- Without a sign. -/
  | plain {ds : List Char} (h : Digits w ds) :
      Numeral w ds (BitVec.ofNat w (Nat.ofDigitChars 10 ds 0))
  /-- With a plus. -/
  | plus {ds : List Char} (h : Digits w ds) :
      Numeral w ('+' :: ds) (BitVec.ofNat w (Nat.ofDigitChars 10 ds 0))
  /-- With a minus. -/
  | minus {ds : List Char} (h : Digits w ds) :
      Numeral w ('-' :: ds) (-BitVec.ofNat w (Nat.ofDigitChars 10 ds 0))

variable {w : ℕ}

/-- The characters of a numeral: a sign and digits. -/
theorem Numeral.mem {num : List Char} {v : BitVec w} (h : Numeral w num v) {c : Char}
    (hc : c ∈ num) : c = '+' ∨ c = '-' ∨ c.isDigit = true := by
  cases h with
  | plain hd => exact Or.inr (Or.inr (hd.isDigit c hc))
  | plus hd => exact (List.mem_cons.mp hc).imp id fun hc => Or.inr (hd.isDigit c hc)
  | minus hd => exact Or.inr ((List.mem_cons.mp hc).imp id (hd.isDigit c))

/-- Digits are read up to the first character that is none, behind either sign. -/
theorem scanUnsigned_digits {ds rest t : List Char} {neg : Bool} (hd : Digits w ds)
    (hrest : Ends rest) {s : List Char} (hsign : scanSign (skipSpace s) = (neg, t))
    (ht : t = ds ++ rest) :
    scanUnsigned w s = .value (if neg then -BitVec.ofNat w (Nat.ofDigitChars 10 ds 0)
      else BitVec.ofNat w (Nat.ofDigitChars 10 ds 0)) rest := by
  have hend : ∀ c ∈ rest.head?, c.isDigit = false := by
    intro c hc
    by_contra hdigit
    rw [Bool.not_eq_false] at hdigit
    exact Bool.false_ne_true ((isSpace_of_isDigit hdigit).symm.trans (hrest c hc))
  obtain ⟨htake, hdrop⟩ := munch hd.isDigit hend
  unfold scanUnsigned
  dsimp only
  rw [hsign, ht]
  dsimp only
  rw [htake, hdrop, if_neg hd.ne_nil, if_pos hd.lt]

/-- A numeral is read as its value, up to its end. -/
theorem scanUnsigned_numeral {num rest : List Char} {v : BitVec w} (hn : Numeral w num v)
    (hrest : Ends rest) {s : List Char} (hs : skipSpace s = skipSpace (num ++ rest)) :
    scanUnsigned w s = .value v rest := by
  cases hn with
  | plain h =>
    obtain ⟨c, ds, rfl⟩ := List.exists_cons_of_ne_nil h.ne_nil
    have hc := h.isDigit c List.mem_cons_self
    have hskip : skipSpace s = c :: (ds ++ rest) := by
      rw [hs]
      exact skipSpace_cons (isSpace_of_isDigit hc) _
    have hsign : scanSign (skipSpace s) = (false, c :: (ds ++ rest)) := by
      rw [hskip, scanSign, if_neg (by rintro rfl; exact absurd hc (by decide)),
        if_neg (by rintro rfl; exact absurd hc (by decide))]
    exact scanUnsigned_digits h hrest hsign rfl
  | @plus ds h =>
    have hskip : skipSpace s = '+' :: (ds ++ rest) := hs.trans (skipSpace_cons (by decide) _)
    have hsign : scanSign (skipSpace s) = (false, ds ++ rest) := by
      rw [hskip, scanSign, if_neg (by decide), if_pos rfl]
    exact scanUnsigned_digits h hrest hsign rfl
  | @minus ds h =>
    have hskip : skipSpace s = '-' :: (ds ++ rest) := hs.trans (skipSpace_cons (by decide) _)
    have hsign : scanSign (skipSpace s) = (true, ds ++ rest) := by
      rw [hskip, scanSign, if_pos rfl]
    exact scanUnsigned_digits h hrest hsign rfl

/-- Numerals, each behind white space. -/
inductive Operands (w : ℕ) : List (BitVec w) → List Char → Prop
  /-- None. -/
  | nil : Operands w [] []
  /-- One more in front. -/
  | cons {sp num s : List Char} {v : BitVec w} {vs : List (BitVec w)} (hne : sp ≠ [])
      (hsp : Blank sp) (hn : Numeral w num v) (h : Operands w vs s) :
      Operands w (v :: vs) (sp ++ (num ++ s))

/-- Operands start with white space. -/
theorem Operands.ends {vs : List (BitVec w)} {s : List Char} (h : Operands w vs s) :
    Ends s := by
  cases h with
  | nil => exact fun c hc => absurd hc (by simp)
  | cons hne hsp hn h => exact hsp.ends.append fun hnil => absurd hnil hne

/-- Operands are not written as nothing. -/
theorem Operands.ne_nil {vs : List (BitVec w)} {s : List Char} (h : Operands w vs s)
    (hvs : vs ≠ []) : s ≠ [] := by
  cases h with
  | nil => exact absurd rfl hvs
  | cons hne hsp hn h => exact List.append_ne_nil_of_left_ne_nil hne _

/-- A format with as many conversions as there are operands reads them all. -/
theorem scanf_operands {vs : List (BitVec w)} {ops rest : List Char}
    (h : Operands w vs ops) (hrest : Ends rest) {fmt : List Directive}
    (hfmt : fmt.count .unsigned = vs.length) {s : List Char}
    (hs : skipSpace s = skipSpace (ops ++ rest)) :
    ∃ t, scanf w fmt s = some (vs, t) ∧ skipSpace t = skipSpace rest := by
  induction fmt generalizing s vs ops with
  | nil =>
    have hvs : vs = [] := List.eq_nil_of_length_eq_zero hfmt.symm
    subst hvs
    cases h
    exact ⟨s, rfl, hs⟩
  | cons d fmt ih =>
    cases d with
    | space =>
      rw [scanf]
      exact ih h (by simpa using hfmt) ((skipSpace_skipSpace s).trans hs)
    | unsigned =>
      rw [List.count_cons_self] at hfmt
      cases h with
      | nil => exact absurd hfmt (by simp)
      | @cons sp num ops v vs hne hsp hn h =>
        have hend : Ends (ops ++ rest) := h.ends.append fun _ => hrest
        rw [List.append_assoc, List.append_assoc, skipSpace_append hsp] at hs
        obtain ⟨t, ht, hskip⟩ := ih h (Nat.succ.inj hfmt) rfl
        refine ⟨t, ?_, hskip⟩
        rw [scanf, scanUnsigned_numeral hn hend hs]
        dsimp only
        rw [ht]
        rfl

/-- At the end of the text no format reads anything. -/
theorem scanf_nil (fmt : List Directive) : scanf w fmt [] = some ([], []) := by
  induction fmt with
  | nil => rfl
  | cons d fmt ih =>
    cases d with
    | space => exact ih
    | unsigned => rfl

/-- A word is found behind white space only. -/
theorem scanWord_congr {s t : List Char} (h : skipSpace s = skipSpace t) :
    scanWord s = scanWord t := by
  unfold scanWord
  rw [h]

/-! ## Writing -/

/-- The digits of a number. -/
def writeUnsigned (v : BitVec w) : List Char := Nat.toDigits 10 v.toNat

/-- A written number is a numeral of its value. -/
theorem writeUnsigned_numeral (v : BitVec w) : Numeral w (writeUnsigned v) v := by
  have hd : Digits w (writeUnsigned v) := by
    refine ⟨Nat.toDigits_ne_nil, fun c hc => ?_, ?_⟩
    · exact Nat.isDigit_of_mem_toDigits (by decide) (by decide) hc
    · unfold writeUnsigned
      rw [Nat.ofDigitChars_ten_toDigits]
      exact v.isLt
  have hn := Numeral.plain hd
  unfold writeUnsigned at hn
  rw [Nat.ofDigitChars_ten_toDigits, BitVec.ofNat_toNat, BitVec.setWidth_eq] at hn
  exact hn

/-- A 64-bit number takes at most twenty digits. -/
theorem writeUnsigned_length (v : BitVec 64) : (writeUnsigned v).length ≤ 20 := by
  unfold writeUnsigned
  rw [Nat.length_toDigits_le_iff (by decide) (by decide)]
  have hv := v.isLt
  omega

/-- The numbers of a line, each behind a blank. -/
def writeOperands : List (BitVec w) → List Char
  | [] => []
  | v :: vs => [' '] ++ (writeUnsigned v ++ writeOperands vs)

/-- The operands that are written are those that are read. -/
theorem writeOperands_operands (vs : List (BitVec w)) : Operands w vs (writeOperands vs) := by
  induction vs with
  | nil => exact .nil
  | cons v vs ih =>
    exact .cons (List.cons_ne_nil _ _) (blank_singleton rfl) (writeUnsigned_numeral v) ih

/-- The characters of written numbers: digits and blanks. -/
theorem mem_writeOperands {vs : List (BitVec w)} {c : Char} (hc : c ∈ writeOperands vs) :
    c = ' ' ∨ c.isDigit = true := by
  induction vs with
  | nil => exact absurd hc List.not_mem_nil
  | cons v vs ih =>
    rw [writeOperands, List.mem_append, List.mem_append, List.mem_singleton] at hc
    rcases hc with hc | hc | hc
    · exact Or.inl hc
    · exact Or.inr (Nat.isDigit_of_mem_toDigits (by decide) (by decide) hc)
    · exact ih hc

/-- Each 64-bit number takes at most twenty-one characters. -/
theorem writeOperands_length (vs : List (BitVec 64)) :
    (writeOperands vs).length ≤ 21 * vs.length := by
  induction vs with
  | nil => exact Nat.zero_le _
  | cons v vs ih =>
    have hv := writeUnsigned_length v
    rw [writeOperands, List.length_append, List.length_append, List.length_singleton,
      List.length_cons]
    omega

/-! ## Lines -/

/-- A buffer without a null character is all of its string. -/
theorem cString_of_not_mem {s : List Char} (h : '\x00' ∉ s) : cString s = s := by
  refine List.takeWhile_eq_self_iff.mpr fun c hc => ?_
  rw [bne_iff_ne]
  rintro rfl
  exact h hc

/-- No operand holds a null character. -/
theorem Operands.null_not_mem {vs : List (BitVec w)} {s : List Char}
    (h : Operands w vs s) : '\x00' ∉ s := by
  induction h with
  | nil => exact List.not_mem_nil
  | cons hne hsp hn h ih =>
    rw [List.mem_append, List.mem_append, not_or, not_or]
    refine ⟨fun hc => absurd (hsp _ hc) (by decide), fun hc => ?_, ih⟩
    exact absurd (hn.mem hc) (by decide)

/-- `fgets` delivers nothing only at the end of the text. -/
theorem fgets_eq_nil {n : ℕ} {s : List Char} (h : (fgets (n + 1) s).1 = []) :
    (fgets (n + 1) s).2 = [] := by
  cases s with
  | nil => rfl
  | cons c s =>
    rw [fgets] at h
    split at h <;> exact absurd h (List.cons_ne_nil _ _)

/-- A line takes what comes before its end. -/
theorem fgets_append {item s : List Char} {n : ℕ} (hline : '\n' ∉ item)
    (hn : item.length ≤ n) : fgets n (item ++ s) =
      (item ++ (fgets (n - item.length) s).1, (fgets (n - item.length) s).2) := by
  induction item generalizing n with
  | nil => rfl
  | cons c item ih =>
    rw [List.mem_cons, not_or] at hline
    cases n with
    | zero => exact absurd hn (by simp)
    | succ n =>
      rw [List.cons_append, fgets, if_neg (Ne.symm hline.1),
        ih hline.2 (Nat.le_of_succ_le_succ hn), List.length_cons, Nat.succ_sub_succ]
      rfl

/-- A line of white space is read as such, and what is left of it is skipped. -/
theorem fgets_blank {pad rest : List Char} (hpad : Blank pad)
    (hrest : ∀ c ∈ rest.head?, c = '\n') (n : ℕ) :
    Blank (fgets n (pad ++ rest)).1 ∧
      skipSpace (fgets n (pad ++ rest)).2 = skipSpace rest := by
  induction pad generalizing n with
  | nil =>
    cases n with
    | zero => exact ⟨blank_nil, rfl⟩
    | succ n =>
      cases rest with
      | nil => exact ⟨blank_nil, rfl⟩
      | cons c rest =>
        have hc : c = '\n' := hrest c rfl
        subst hc
        rw [List.nil_append, fgets, if_pos rfl]
        exact ⟨blank_singleton rfl, rfl⟩
  | cons c pad ih =>
    have hc : isSpace c = true := hpad c List.mem_cons_self
    have hpad' : Blank pad := fun d hd => hpad d (List.mem_cons_of_mem _ hd)
    cases n with
    | zero => exact ⟨blank_nil, skipSpace_append hpad rest⟩
    | succ n =>
      rw [List.cons_append, fgets]
      split
      · exact ⟨blank_singleton hc, skipSpace_append hpad' rest⟩
      · obtain ⟨hb, hs⟩ := ih hpad' n
        refine ⟨fun d hd => ?_, hs⟩
        rcases List.mem_cons.mp hd with rfl | hd
        · exact hc
        · exact hb d hd

end OsSim.TextScanning

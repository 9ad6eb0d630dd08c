import OsSim.TextScanning

/-!
# Formats of mixed items

`fscanf` for formats that mix signed decimals, unsigned decimals and words. Items that
stand behind white space are read back in any layout, and what follows them is left.
-/

namespace OsSim.FormatScanning

open TextScanning

/-! ## Signed decimals -/

/-- The decimal at the start of the text fits a signed object of `w` bits. -/
def inRange (w : ℕ) (s : List Char) : Bool :=
  let t := scanSign (skipSpace s)
  Nat.ofDigitChars 10 (t.2.takeWhile Char.isDigit) 0 < 2 ^ (w - 1) + t.1.toNat

/-- The conversion of `%d`: that of an unsigned decimal, with a smaller range. -/
def scanSigned (w : ℕ) (s : List Char) : Conversion w :=
  if inRange w s then scanUnsigned w s else .overflow

/-- How a signed value may be written. -/
structure SignedNumeral (w : ℕ) (num : List Char) (v : BitVec w) : Prop where
  /-- A numeral of its bits. -/
  numeral : Numeral w num v
  /-- The value is in range. -/
  range : inRange w num = true

/-- A digit is no sign. -/
theorem scanSign_digits {w : ℕ} {ds : List Char} (hd : Digits w ds) (rest : List Char) :
    scanSign (skipSpace (ds ++ rest)) = (false, ds ++ rest) := by
  obtain ⟨c, ds, rfl⟩ := List.exists_cons_of_ne_nil hd.ne_nil
  have hc := hd.isDigit c List.mem_cons_self
  rw [List.cons_append, skipSpace_cons (isSpace_of_isDigit hc), scanSign,
    if_neg (by rintro rfl; exact absurd hc (by decide)),
    if_neg (by rintro rfl; exact absurd hc (by decide))]

/-- The sign and the digits of a numeral, whatever follows it. -/
theorem numeral_sign {w : ℕ} {num : List Char} {v : BitVec w} (h : Numeral w num v) :
    ∃ neg ds, Digits w ds ∧ ∀ rest, scanSign (skipSpace (num ++ rest)) = (neg, ds ++ rest) := by
  cases h with
  | plain h => exact ⟨false, num, h, scanSign_digits h⟩
  | @plus ds h =>
    refine ⟨false, ds, h, fun rest => ?_⟩
    rw [List.cons_append, skipSpace_cons (by decide), scanSign, if_neg (by decide), if_pos rfl]
  | @minus ds h =>
    refine ⟨true, ds, h, fun rest => ?_⟩
    rw [List.cons_append, skipSpace_cons (by decide), scanSign, if_pos rfl]

/-- No digit stands where a word ends. -/
theorem not_isDigit_of_ends {rest : List Char} (h : Ends rest) :
    ∀ c ∈ rest.head?, c.isDigit = false := by
  intro c hc
  by_contra hdigit
  rw [Bool.not_eq_false] at hdigit
  exact Bool.false_ne_true ((isSpace_of_isDigit hdigit).symm.trans (h c hc))

/-- The range of a numeral does not depend on what follows it. -/
theorem inRange_append {w : ℕ} {num rest : List Char} {v : BitVec w} (hn : Numeral w num v)
    (hrest : Ends rest) {s : List Char} (hs : skipSpace s = skipSpace (num ++ rest)) :
    inRange w s = inRange w num := by
  obtain ⟨neg, ds, hd, hsign⟩ := numeral_sign hn
  have halone := hsign []
  rw [List.append_nil, List.append_nil] at halone
  unfold inRange
  rw [hs, hsign rest, halone]
  dsimp only
  rw [(munch hd.isDigit (not_isDigit_of_ends hrest)).1, List.takeWhile_eq_self_iff.mpr hd.isDigit]

/-- A signed numeral is read as its value, up to its end. -/
theorem scanSigned_numeral {w : ℕ} {num rest : List Char} {v : BitVec w}
    (h : SignedNumeral w num v) (hrest : Ends rest) {s : List Char}
    (hs : skipSpace s = skipSpace (num ++ rest)) : scanSigned w s = .value v rest := by
  unfold scanSigned
  rw [inRange_append h.numeral hrest hs, h.range, if_pos rfl]
  exact scanUnsigned_numeral h.numeral hrest hs

/-! ## Formats -/

/-- What a format consists of. -/
inductive Item
  /-- White space, for any white space. -/
  | space
  /-- `%d`. -/
  | signed
  /-- `%lu`. -/
  | unsigned
  /-- `%s`. -/
  | word
  deriving DecidableEq

/-- A value that a conversion assigns. -/
inductive Field
  /-- An `int`. -/
  | signed (v : BitVec 32)
  /-- An `unsigned long`. -/
  | unsigned (v : BitVec 64)
  /-- The characters of a word. -/
  | word (s : List Char)
  deriving DecidableEq

/-- The conversion that assigns a field. -/
def Field.item : Field → Item
  | .signed _ => .signed
  | .unsigned _ => .unsigned
  | .word _ => .word

/-- What a format assigns, in order, and the text that is left; none when the behaviour is
undefined. -/
def scanItems : List Item → List Char → Option (List Field × List Char)
  | [], s => some ([], s)
  | .space :: fmt, s => scanItems fmt (skipSpace s)
  | .signed :: fmt, s =>
    match scanSigned 32 s with
    | .failed rest => some ([], rest)
    | .overflow => none
    | .value v rest => (scanItems fmt rest).map fun r => (.signed v :: r.1, r.2)
  | .unsigned :: fmt, s =>
    match scanUnsigned 64 s with
    | .failed rest => some ([], rest)
    | .overflow => none
    | .value v rest => (scanItems fmt rest).map fun r => (.unsigned v :: r.1, r.2)
  | .word :: fmt, s =>
    match scanWord s with
    | none => some ([], [])
    | some (w, rest) => (scanItems fmt rest).map fun r => (.word w :: r.1, r.2)

/-- What was assigned to an `int`, or the value it had. -/
def signedAt (fields : List Field) (i : ℕ) (old : BitVec 32) : BitVec 32 :=
  match fields[i]? with
  | some (.signed v) => v
  | _ => old

/-- What was assigned to an `unsigned long`, or the value it had. -/
def unsignedAt (fields : List Field) (i : ℕ) (old : BitVec 64) : BitVec 64 :=
  match fields[i]? with
  | some (.unsigned v) => v
  | _ => old

/-- What was assigned to a buffer, or the characters it had. -/
def wordAt (fields : List Field) (i : ℕ) (old : List Char) : List Char :=
  match fields[i]? with
  | some (.word s) => s
  | _ => old

/-! ## Fields in a text -/

/-- How a field may be written. -/
inductive Written : Field → List Char → Prop
  /-- A signed decimal. -/
  | signed {num : List Char} {v : BitVec 32} (h : SignedNumeral 32 num v) : Written (.signed v) num
  /-- An unsigned decimal. -/
  | unsigned {num : List Char} {v : BitVec 64} (h : Numeral 64 num v) : Written (.unsigned v) num
  /-- A word. -/
  | word {s : List Char} (hne : s ≠ []) (hword : ∀ c ∈ s, isSpace c = false) : Written (.word s) s

/-- Fields, each behind white space. -/
inductive Fields : List Field → List Char → Prop
  /-- None. -/
  | nil : Fields [] []
  /-- One more in front. -/
  | cons {f : Field} {fs : List Field} {sp item s : List Char} (hne : sp ≠ []) (hsp : Blank sp)
      (hw : Written f item) (h : Fields fs s) : Fields (f :: fs) (sp ++ (item ++ s))

/-- The text starts with these fields, in any layout, and `rest` follows them. -/
def Lists (fs : List Field) (s rest : List Char) : Prop :=
  ∃ ops, Fields fs ops ∧ Ends rest ∧ skipSpace s = skipSpace (ops ++ rest)

/-- Fields start with white space. -/
theorem Fields.ends {fs : List Field} {ops rest : List Char} (h : Fields fs ops)
    (hrest : Ends rest) : Ends (ops ++ rest) := by
  cases h with
  | nil => exact hrest
  | cons hne hsp hw h =>
    rw [List.append_assoc]
    exact hsp.ends.append fun hnil => absurd hnil hne

/-- Two lists of fields, one text behind the other, are one list of fields. -/
theorem Fields.append {fs gs : List Field} {ops ops' : List Char} (h : Fields fs ops)
    (h' : Fields gs ops') : Fields (fs ++ gs) (ops ++ ops') := by
  induction h with
  | nil => exact h'
  | cons hne hsp hw h ih =>
    rw [List.append_assoc, List.append_assoc]
    exact .cons hne hsp hw ih

/-- A text that lists two runs of fields lists the first one, and the text behind that
lists the second one. -/
theorem Lists.split {fs gs : List Field} {s rest : List Char} (h : Lists (fs ++ gs) s rest) :
    ∃ mid, Lists fs s mid ∧ Lists gs mid rest := by
  obtain ⟨ops, hops, hend, hs⟩ := h
  have hsplit : ∃ ops₁ ops₂, ops = ops₁ ++ ops₂ ∧ Fields fs ops₁ ∧ Fields gs ops₂ := by
    clear hs
    induction fs generalizing ops with
    | nil => exact ⟨[], ops, rfl, .nil, hops⟩
    | cons f fs ih =>
      cases hops with
      | @cons _ _ sp item t hne hsp hw h =>
        obtain ⟨ops₁, ops₂, rfl, h₁, h₂⟩ := ih t h
        exact ⟨sp ++ (item ++ ops₁), ops₂, by simp only [List.append_assoc], .cons hne hsp hw h₁, h₂⟩
  obtain ⟨ops₁, ops₂, rfl, h₁, h₂⟩ := hsplit
  rw [List.append_assoc] at hs
  exact ⟨ops₂ ++ rest, ⟨ops₁, h₁, h₂.ends hend, hs⟩, ops₂, h₂, hend, rfl⟩

/-- Leading white space does not matter. -/
theorem Lists.congr {fs : List Field} {s t rest : List Char} (h : Lists fs s rest)
    (ht : skipSpace t = skipSpace s) : Lists fs t rest := by
  obtain ⟨ops, hops, hend, hs⟩ := h
  exact ⟨ops, hops, hend, ht.trans hs⟩

/-- A format reads the fields that it has conversions for. -/
theorem scanItems_fields {fs : List Field} {fmt : List Item} {s rest : List Char}
    (h : Lists fs s rest) (hfmt : fmt.filter (· ≠ .space) = fs.map Field.item) :
    ∃ t, scanItems fmt s = some (fs, t) ∧ skipSpace t = skipSpace rest := by
  obtain ⟨ops, hops, hend, hs⟩ := h
  induction fmt generalizing fs ops s with
  | nil =>
    obtain rfl := List.map_eq_nil_iff.mp hfmt.symm
    cases hops
    exact ⟨s, rfl, hs⟩
  | cons item fmt ih =>
    by_cases hspace : item = .space
    · subst hspace
      rw [scanItems]
      exact ih hfmt ops hops ((skipSpace_skipSpace s).trans hs)
    · rw [List.filter_cons_of_pos (by simpa using hspace)] at hfmt
      cases hops with
      | nil => exact absurd hfmt (List.cons_ne_nil _ _)
      | @cons f fs sp text ops hne hsp hw hops =>
        obtain ⟨rfl, htail⟩ := List.cons.inj hfmt
        obtain ⟨t, ht, hskip⟩ := ih htail ops hops rfl
        have hends := hops.ends hend
        rw [List.append_assoc, List.append_assoc, skipSpace_append hsp] at hs
        refine ⟨t, ?_, hskip⟩
        cases hw with
        | signed hn =>
          rw [Field.item, scanItems, scanSigned_numeral hn hends hs]
          dsimp only
          rw [ht]
          rfl
        | unsigned hn =>
          rw [Field.item, scanItems, scanUnsigned_numeral hn hends hs]
          dsimp only
          rw [ht]
          rfl
        | word hne hword =>
          have hscan : scanWord s = some (text, ops ++ rest) :=
            (scanWord_congr hs).trans (scanWord_append blank_nil hne hword hends)
          rw [Field.item, scanItems, hscan]
          dsimp only
          rw [ht]
          rfl

/-- At the end of a text nothing is read. -/
theorem scanItems_blank (fmt : List Item) {s : List Char} (hs : skipSpace s = [])
    (hfmt : fmt.head? ≠ some .space) (hne : fmt ≠ []) :
    ∃ t, scanItems fmt s = some ([], t) ∧ skipSpace t = [] := by
  obtain ⟨item, fmt, rfl⟩ := List.exists_cons_of_ne_nil hne
  have hunsigned : ∀ w, scanUnsigned w s = .failed [] := fun w => by
    unfold scanUnsigned
    rw [hs]
    rfl
  cases item with
  | space => exact absurd rfl hfmt
  | signed =>
    have hsigned : scanSigned 32 s = .failed [] := by
      unfold scanSigned inRange
      rw [hs]
      exact hunsigned 32
    exact ⟨[], by rw [scanItems, hsigned], rfl⟩
  | unsigned => exact ⟨[], by rw [scanItems, hunsigned], rfl⟩
  | word =>
    have hword : scanWord s = none := by
      unfold scanWord
      rw [hs]
    exact ⟨[], by rw [scanItems, hword], rfl⟩

/-! ## Writing -/

/-- The digits of a signed number, behind its sign. -/
def writeSigned {w : ℕ} (v : BitVec w) : List Char :=
  if v.msb then '-' :: Nat.toDigits 10 (-v).toNat else Nat.toDigits 10 v.toNat

/-- A field as text. -/
def writeField : Field → List Char
  | .signed v => writeSigned v
  | .unsigned v => writeUnsigned v
  | .word s => s

/-- Fields, each behind a blank. -/
def writeFields (fs : List Field) : List Char := fs.flatMap fun f => ' ' :: writeField f

/-- The digits of a number in range. -/
theorem digits_toDigits {w n : ℕ} (hn : n < 2 ^ w) : Digits w (Nat.toDigits 10 n) where
  ne_nil := Nat.toDigits_ne_nil
  isDigit _ hc := Nat.isDigit_of_mem_toDigits (by decide) (by decide) hc
  lt := by rw [Nat.ofDigitChars_ten_toDigits]; exact hn

/-- A written number is a signed numeral of its value. -/
theorem writeSigned_numeral {w : ℕ} (hw : 0 < w) (v : BitVec w) :
    SignedNumeral w (writeSigned v) v := by
  have hpow : 2 ^ w = 2 * 2 ^ (w - 1) := by
    obtain ⟨k, rfl⟩ := Nat.exists_eq_succ_of_ne_zero (Nat.ne_of_gt hw)
    rw [Nat.succ_sub_one, Nat.pow_succ, Nat.mul_comm]
  have hv := v.isLt
  have hmsb := BitVec.msb_eq_decide v
  unfold writeSigned
  by_cases hneg : v.msb = true
  · have hmag : (-v).toNat = 2 ^ w - v.toNat := by
      have hge : 2 ^ (w - 1) ≤ v.toNat := by simpa [hneg] using hmsb
      rw [BitVec.toNat_neg]
      exact Nat.mod_eq_of_lt (by omega)
    have hge : 2 ^ (w - 1) ≤ v.toNat := by simpa [hneg] using hmsb
    have hd : Digits w (Nat.toDigits 10 (-v).toNat) := digits_toDigits (-v).isLt
    rw [if_pos hneg]
    refine ⟨?_, ?_⟩
    · have hn := Numeral.minus hd
      rw [Nat.ofDigitChars_ten_toDigits, BitVec.ofNat_toNat, BitVec.setWidth_eq, BitVec.neg_neg]
        at hn
      exact hn
    · unfold inRange
      rw [skipSpace_cons (by decide), scanSign, if_pos rfl]
      dsimp only
      rw [List.takeWhile_eq_self_iff.mpr hd.isDigit, Nat.ofDigitChars_ten_toDigits, hmag,
        decide_eq_true_iff, Bool.toNat_true]
      omega
  · have hlt : v.toNat < 2 ^ (w - 1) := by simpa [hneg] using hmsb
    have hd : Digits w (Nat.toDigits 10 v.toNat) := digits_toDigits v.isLt
    rw [if_neg hneg]
    refine ⟨writeUnsigned_numeral v, ?_⟩
    have hsign := scanSign_digits hd []
    rw [List.append_nil] at hsign
    unfold inRange
    rw [hsign]
    dsimp only
    rw [List.takeWhile_eq_self_iff.mpr hd.isDigit, Nat.ofDigitChars_ten_toDigits,
      decide_eq_true_iff, Bool.toNat_false, Nat.add_zero]
    exact hlt

/-- Numbers can be written, and words that have a character and no white space. -/
def Writable : Field → Prop
  | .word s => s ≠ [] ∧ ∀ c ∈ s, isSpace c = false
  | _ => True

instance decidableWritable : DecidablePred Writable
  | .word s =>
    @instDecidableAnd _ _ (inferInstanceAs (Decidable (s ≠ []))) (List.decidableBAll _ s)
  | .signed _ => isTrue trivial
  | .unsigned _ => isTrue trivial

/-- A field that is written has its text. -/
theorem writeField_written {f : Field} (h : Writable f) : Written f (writeField f) := by
  cases f with
  | signed v => exact .signed (writeSigned_numeral (by decide) v)
  | unsigned v => exact .unsigned (writeUnsigned_numeral v)
  | word s => exact .word h.1 h.2

/-- Written fields are the fields they write. -/
theorem writeFields_fields {fs : List Field} (h : ∀ f ∈ fs, Writable f) :
    Fields fs (writeFields fs) := by
  induction fs with
  | nil => exact .nil
  | cons f fs ih =>
    exact .cons (List.cons_ne_nil ' ' []) (blank_singleton rfl)
      (writeField_written (h f List.mem_cons_self))
      (ih fun g hg => h g (List.mem_cons_of_mem f hg))

/-- A line of fields, behind a line end. -/
def writeRow (fs : List Field) : List Char := '\n' :: (writeFields fs).tail

/-- Lines of fields, the last one with its end. -/
def writeRows (rows : List (List Field)) : List Char := (rows.flatMap writeRow).tail ++ ['\n']

/-- Written lines list all their fields. -/
theorem writeRows_lists {rows : List (List Field)} (hne : ∀ fs ∈ rows, fs ≠ [])
    (h : ∀ fs ∈ rows, ∀ f ∈ fs, Writable f) : Lists rows.flatten (writeRows rows) ['\n'] := by
  have hrow : ∀ fs ∈ rows, Fields fs (writeRow fs) := by
    intro fs hfs
    obtain ⟨f, gs, rfl⟩ := List.exists_cons_of_ne_nil (hne fs hfs)
    exact .cons (List.cons_ne_nil '\n' []) (blank_singleton rfl)
      (writeField_written (h _ hfs f List.mem_cons_self))
      (writeFields_fields fun g hg => h _ hfs g (List.mem_cons_of_mem f hg))
  have hrows : Fields rows.flatten (rows.flatMap writeRow) := by
    clear hne h
    induction rows with
    | nil => exact .nil
    | cons fs rows ih =>
      exact (hrow fs List.mem_cons_self).append (ih fun gs hgs => hrow gs (List.mem_cons_of_mem fs hgs))
  refine ⟨_, hrows, ends_cons rfl [], ?_⟩
  unfold writeRows
  cases rows with
  | nil => rfl
  | cons fs rows => exact (skipSpace_append (blank_singleton rfl) _).symm

end OsSim.FormatScanning

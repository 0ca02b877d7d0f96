import HistoryCache.Config.Size
import Mathlib.Data.List.DropRight
import Mathlib.Data.Nat.Digits.Defs

/-!
# The grammar of sizes

A size is a numeral with a suffix, and blanks around both (`Size.Written`): digits that may have a
plus sign before them, and a letter that may have blanks before it.  It denotes the product of its
number and its factor if both the number and the product have a place in 64 bits (`Size.Denotes`).

What is read from a text is what it denotes, and a text that denotes nothing is refused
(`Size.parse_denotes`).  The text is cut at the blanks (`Text.trimBlanks_of_firm`,
`Text.exists_trimBlanks`), at the letter and at the sign, once for each direction.
-/

namespace HistoryCache

namespace Text

/-! ## Blanks around a text -/

def Blanks (cs : List Char) : Prop := ∀ c ∈ cs, isBlank c

/-- A text that is not empty and has no blank at either end. -/
structure Firm (cs : List Char) : Prop where
  head : ∃ c, cs.head? = some c ∧ ¬ isBlank c
  last : ∃ c, cs.getLast? = some c ∧ ¬ isBlank c

variable {cs ds before after : List Char} {c : Char} {n : Nat}

theorem Blanks.nil : Blanks [] := List.forall_mem_nil _

theorem Blanks.append (hb : Blanks before) (ha : Blanks after) : Blanks (before ++ after) :=
  List.forall_mem_append.2 ⟨hb, ha⟩

theorem Firm.append (h : Firm cs) (hlast : ∃ c, ds.getLast? = some c ∧ ¬ isBlank c) :
    Firm (cs ++ ds) := by
  obtain ⟨a, ha, hblank⟩ := h.head
  obtain ⟨z, hz, hblank'⟩ := hlast
  refine ⟨⟨a, ?_, hblank⟩, ⟨z, ?_, hblank'⟩⟩
  · rw [List.head?_append, ha, Option.some_or]
  · rw [List.getLast?_append, hz, Option.some_or]

/-- The blanks around a firm text are what is cut off. -/
theorem trimBlanks_of_firm (hb : Blanks before) (ha : Blanks after) (h : Firm cs) :
    trimBlanks (before ++ cs ++ after) = cs := by
  obtain ⟨a, hhead, hblank⟩ := h.head
  obtain ⟨z, hlast, hblank'⟩ := h.last
  obtain ⟨rest, rfl⟩ := List.head?_eq_some_iff.1 hhead
  have hfront : (before ++ a :: rest ++ after).dropWhile isBlank = a :: rest ++ after := by
    rw [List.append_assoc, List.dropWhile_append_of_pos hb, List.cons_append,
      List.dropWhile_cons_of_neg hblank]
  obtain ⟨init, hinit⟩ := List.getLast?_eq_some_iff.1 hlast
  have hrev : Blanks after.reverse := fun c hc => ha c (List.mem_reverse.1 hc)
  rw [trimBlanks, hfront, List.reverse_append, List.dropWhile_append_of_pos hrev, hinit,
    List.reverse_concat, List.dropWhile_cons_of_neg hblank', ← List.reverse_concat,
    List.reverse_reverse]

/-- Every text is what is left of it with blanks around. -/
theorem exists_trimBlanks (cs : List Char) :
    ∃ before after, Blanks before ∧ Blanks after ∧ cs = before ++ trimBlanks cs ++ after := by
  refine ⟨cs.takeWhile isBlank, (cs.dropWhile isBlank).rtakeWhile isBlank,
    fun c => List.mem_takeWhile_imp, fun c => List.mem_rtakeWhile_imp, ?_⟩
  have htrim : trimBlanks cs = (cs.dropWhile isBlank).rdropWhile isBlank := rfl
  rw [htrim, List.append_assoc, List.rdropWhile_append_rtakeWhile, List.takeWhile_append_dropWhile]

/-- The characters of ASCII that can be seen are not blank. -/
theorem not_isBlank_of_visible (hlow : 0x21 ≤ c.toNat) (hhigh : c.toNat ≤ 0x7e) : ¬ isBlank c := by
  simp only [isBlank, blankRanges, List.any_cons, List.any_nil, Bool.or_eq_true, decide_eq_true_eq,
    Bool.false_eq_true, or_false]
  omega

/-! ## Numerals -/

structure Digits (cs : List Char) : Prop where
  ne_nil : cs ≠ []
  isDigit : ∀ c ∈ cs, c.isDigit

/-- The number that digits stand for by their places. -/
def placeValue (cs : List Char) : Nat := Nat.ofDigits 10 (cs.reverse.map digitValue)

/-- Digits that may have a plus sign before them, and their number. -/
inductive Numeral : List Char → Nat → Prop
  | plain {ds : List Char} (h : Digits ds) : Numeral ds (placeValue ds)
  | plus {ds : List Char} (h : Digits ds) : Numeral ('+' :: ds) (placeValue ds)

theorem ofDigits_eq_placeValue (cs : List Char) : ofDigits cs = placeValue cs := by
  rw [placeValue, Nat.ofDigits_eq_foldr, List.foldr_map, List.foldr_reverse, ofDigits]
  congr
  funext n c
  exact Nat.add_comm _ _

theorem natural?_eq_some_iff : natural? cs = some n ↔ Digits cs ∧ placeValue cs = n := by
  rw [natural?, ofDigits_eq_placeValue, Option.ite_none_right_eq_some, Option.some_inj,
    List.all_eq_true]
  exact and_congr_left' ⟨fun h => ⟨h.1, h.2⟩, fun h => ⟨h.ne_nil, h.isDigit⟩⟩

theorem unsigned?_eq_some_iff : unsigned? cs = some n ↔ Numeral cs n := by
  constructor
  · intro h
    unfold unsigned? at h
    split at h
    · obtain ⟨hdigits, rfl⟩ := natural?_eq_some_iff.1 h
      exact .plus hdigits
    · obtain ⟨hdigits, rfl⟩ := natural?_eq_some_iff.1 h
      exact .plain hdigits
  · rintro (⟨hdigits⟩ | ⟨hdigits⟩)
    · unfold unsigned?
      split
      · exact absurd (hdigits.isDigit '+' List.mem_cons_self) (by decide)
      · exact natural?_eq_some_iff.2 ⟨hdigits, rfl⟩
    · exact natural?_eq_some_iff.2 ⟨hdigits, rfl⟩

theorem not_isBlank_of_isDigit (h : c.isDigit) : ¬ isBlank c := by
  obtain ⟨hlow, hhigh⟩ : 48 ≤ c.toNat ∧ c.toNat ≤ 57 := Char.isDigit_iff_toNat.1 h
  exact not_isBlank_of_visible (by omega) (by omega)

theorem not_isAlpha_of_isDigit (h : c.isDigit) : ¬ c.isAlpha := by
  have hhigh : c.toNat ≤ 57 := (Char.isDigit_iff_toNat.1 h).2
  intro halpha
  rcases (Bool.or_eq_true _ _).mp halpha with hupper | hlower
  · have hlow : 65 ≤ c.toNat := (of_decide_eq_true hupper).1
    omega
  · have hlow : 97 ≤ c.toNat := of_decide_eq_true ((Bool.and_eq_true _ _).mp hlower).1
    omega

/-- The last character of a numeral is a digit. -/
theorem Numeral.exists_last (h : Numeral cs n) : ∃ c, cs.getLast? = some c ∧ c.isDigit := by
  cases h with
  | plain h =>
    exact ⟨_, List.getLast?_eq_some_getLast h.ne_nil, h.isDigit _ (List.getLast_mem h.ne_nil)⟩
  | plus h =>
    refine ⟨_, ?_, h.isDigit _ (List.getLast_mem h.ne_nil)⟩
    rw [List.getLast?_cons, List.getLast?_eq_some_getLast h.ne_nil, Option.getD_some]

theorem Numeral.firm (h : Numeral cs n) : Firm cs := by
  obtain ⟨c, hlast, hdigit⟩ := h.exists_last
  refine ⟨?_, ⟨c, hlast, not_isBlank_of_isDigit hdigit⟩⟩
  cases h with
  | plain h =>
    exact ⟨_, List.head?_eq_some_head h.ne_nil,
      not_isBlank_of_isDigit (h.isDigit _ (List.head_mem h.ne_nil))⟩
  | plus => exact ⟨'+', rfl, by decide⟩

end Text

namespace Size

open Text (Blanks Firm Numeral)

/-! ## The grammar -/

/-- A letter, in either case, stands for a power of 1024. -/
inductive Stands : Char → Nat → Prop
  | kilo {c : Char} (h : c = 'K' ∨ c = 'k') : Stands c (2 ^ 10)
  | mega {c : Char} (h : c = 'M' ∨ c = 'm') : Stands c (2 ^ 20)
  | giga {c : Char} (h : c = 'G' ∨ c = 'g') : Stands c (2 ^ 30)
  | tera {c : Char} (h : c = 'T' ∨ c = 't') : Stands c (2 ^ 40)

/-- What may follow the number, and the factor: nothing, or a letter that may have blanks before
it. -/
inductive Suffix : List Char → Nat → Prop
  | none : Suffix [] 1
  | letter {blanks : List Char} {c : Char} {f : Nat} (hb : Blanks blanks) (h : Stands c f) :
      Suffix (blanks ++ [c]) f

/-- A text is a size of `n` times `f` bytes. -/
def Written (text : List Char) (n f : Nat) : Prop :=
  ∃ before numeral suffix after, Blanks before ∧ Numeral numeral n ∧ Suffix suffix f ∧
    Blanks after ∧ text = before ++ (numeral ++ suffix) ++ after

/-- A text denotes a number of bytes, if the number before the suffix and the whole have a place in
64 bits. -/
def Denotes (text : List Char) (v : Nat) : Prop :=
  ∃ n f, Written text n f ∧ n < 2 ^ 64 ∧ v = n * f ∧ v < 2 ^ 64

variable {cs : List Char} {c : Char} {n f v : Nat}

/-! ## Letters -/

/-- An upper case is that of itself and of its lower case only. -/
theorem eq_or_eq_toLower {upper : Char} (h : c.toUpper = upper) : c = upper ∨ c = upper.toLower := by
  subst h
  by_cases hc : 'a'.val ≤ c.val ∧ c.val ≤ 'z'.val
  · right
    have hval : c.toUpper.val = c.val + ('A'.val - 'a'.val) := by
      delta Char.toUpper
      rw [dif_pos hc]
    have hlow : 97 ≤ c.val.toNat := hc.1
    have hhigh : c.val.toNat ≤ 122 := hc.2
    have hupper : c.toUpper.val.toNat = c.val.toNat - 32 := by
      rw [hval, UInt32.toNat_add]
      show (c.val.toNat + 4294967264) % 4294967296 = _
      omega
    have hrange : 'A'.val ≤ c.toUpper.val ∧ c.toUpper.val ≤ 'Z'.val :=
      ⟨show 65 ≤ c.toUpper.val.toNat by omega, show c.toUpper.val.toNat ≤ 90 by omega⟩
    have hlower : c.toUpper.toLower.val = c.toUpper.val + ('a'.val - 'A'.val) := by
      delta Char.toLower
      rw [dif_pos hrange]
    apply Char.ext
    rw [hlower, hval, UInt32.add_assoc]
    exact (UInt32.add_zero _).symm
  · left
    delta Char.toUpper
    rw [dif_neg hc]

theorem factor?_eq_some_iff : factor? c = some f ↔ Stands c f := by
  constructor
  · intro h
    rw [factor?] at h
    split at h <;> cases h
    · next hupper => exact .kilo (eq_or_eq_toLower hupper)
    · next hupper => exact .mega (eq_or_eq_toLower hupper)
    · next hupper => exact .giga (eq_or_eq_toLower hupper)
    · next hupper => exact .tera (eq_or_eq_toLower hupper)
  · rintro (⟨rfl | rfl⟩ | ⟨rfl | rfl⟩ | ⟨rfl | rfl⟩ | ⟨rfl | rfl⟩) <;> rfl

theorem Stands.isAlpha (h : Stands c f) : c.isAlpha := by
  obtain (⟨rfl | rfl⟩ | ⟨rfl | rfl⟩ | ⟨rfl | rfl⟩ | ⟨rfl | rfl⟩) := h <;> decide

theorem Stands.not_isBlank (h : Stands c f) : ¬ Text.isBlank c := by
  obtain (⟨rfl | rfl⟩ | ⟨rfl | rfl⟩ | ⟨rfl | rfl⟩ | ⟨rfl | rfl⟩) := h <;> decide

/-! ## Reading -/

/-- What comes of a number and its factor. -/
theorem scale_of_numeral {before numeral after : List Char} (hb : Blanks before)
    (h : Numeral numeral n) (ha : Blanks after) (f : Nat) :
    scale (before ++ numeral ++ after) f =
      if 2 ^ 64 ≤ n then .error .notANumber
      else if 2 ^ 64 ≤ n * f then .error .overflow
      else .ok (n * f) := by
  rw [scale, Text.trimBlanks_of_firm hb ha h.firm, Text.unsigned?_eq_some_iff.2 h]
  rfl

/-- Only a number of 64 bits with blanks around it comes to something else. -/
theorem exists_numeral_of_scale (h : scale cs f ≠ .error .notANumber) :
    ∃ before numeral after n, Blanks before ∧ Numeral numeral n ∧ Blanks after ∧
      cs = before ++ numeral ++ after ∧ n < 2 ^ 64 := by
  obtain ⟨before, after, hb, ha, hcs⟩ := Text.exists_trimBlanks cs
  cases hn : Text.unsigned? (Text.trimBlanks cs) with
  | none => exact absurd (by rw [scale, hn]) h
  | some n =>
    refine ⟨before, _, after, n, hb, Text.unsigned?_eq_some_iff.1 hn, ha, hcs, ?_⟩
    by_contra hlarge
    exact h (by rw [scale, hn]; exact if_pos (Nat.le_of_not_lt hlarge))

/-- A text of the grammar is cut into its number and its suffix. -/
theorem ofChars_of_written (h : Written cs n f) :
    ofChars cs =
      if 2 ^ 64 ≤ n then .error .notANumber
      else if 2 ^ 64 ≤ n * f then .error .overflow
      else .ok (n * f) := by
  obtain ⟨before, numeral, suffix, after, hb, hn, hs, ha, rfl⟩ := h
  cases hs with
  | none =>
    -- A digit stands last, and so nothing is taken for a letter.
    obtain ⟨c, hlast, hdigit⟩ := hn.exists_last
    rw [List.append_nil, ofChars, Text.trimBlanks_of_firm hb ha hn.firm]
    simp only [hlast, if_neg (Text.not_isAlpha_of_isDigit hdigit)]
    simpa using scale_of_numeral .nil hn .nil 1
  | @letter blanks c f hblanks hc =>
    have hlast : (blanks ++ [c]).getLast? = some c := List.getLast?_concat
    rw [ofChars, Text.trimBlanks_of_firm hb ha (hn.firm.append ⟨c, hlast, hc.not_isBlank⟩),
      ← List.append_assoc]
    simp only [List.getLast?_concat, if_pos hc.isAlpha, factor?_eq_some_iff.2 hc,
      List.dropLast_concat]
    exact scale_of_numeral .nil hn hblanks f

/-- A text without blanks around it is read as a number, as a number with a letter behind it, or not
at all. -/
theorem ofChars_cases (cs : List Char) :
    ofChars cs = scale (Text.trimBlanks cs) 1 ∨
    (∃ number c f, Text.trimBlanks cs = number ++ [c] ∧ Stands c f ∧ ofChars cs = scale number f) ∨
    ofChars cs = .error .unknownSuffix := by
  rw [ofChars]
  generalize Text.trimBlanks cs = core
  split
  · next hnone =>
    rw [List.getLast?_eq_none_iff.1 hnone]
    exact .inl rfl
  · next c hlast =>
    obtain ⟨number, rfl⟩ := List.getLast?_eq_some_iff.1 hlast
    rw [List.dropLast_concat]
    split
    · split
      · next f hf => exact .inr (.inl ⟨number, c, f, rfl, factor?_eq_some_iff.1 hf, rfl⟩)
      · exact .inr (.inr rfl)
    · exact .inl rfl

/-- What is not refused as no number or for its letter is of the grammar. -/
theorem exists_written_of_ofChars {result : Except Fault Nat} (h : ofChars cs = result)
    (hnumber : result ≠ .error .notANumber) (hsuffix : result ≠ .error .unknownSuffix) :
    ∃ n f, Written cs n f ∧ n < 2 ^ 64 ∧
      result = if 2 ^ 64 ≤ n * f then .error .overflow else .ok (n * f) := by
  subst h
  suffices hw : ∃ n f, Written cs n f ∧ n < 2 ^ 64 by
    obtain ⟨n, f, hw, hn⟩ := hw
    exact ⟨n, f, hw, hn, by rw [ofChars_of_written hw, if_neg (Nat.not_le_of_lt hn)]⟩
  obtain ⟨before, after, hb, ha, hcs⟩ := Text.exists_trimBlanks cs
  -- The text is cut at blanks twice; in front of the number the two cuts are one, and so they are
  -- behind it if there is no letter.
  obtain hplain | ⟨number, c, f, hcore, hc, hletter⟩ | hunknown := ofChars_cases cs
  · rw [hplain] at hnumber
    obtain ⟨before', numeral, after', n, hb', hn, ha', hcore, hlt⟩ := exists_numeral_of_scale hnumber
    refine ⟨n, 1, ⟨before ++ before', numeral, [], after' ++ after, hb.append hb', hn, .none,
      ha'.append ha, ?_⟩, hlt⟩
    rw [hcs, hcore]
    simp only [List.append_assoc, List.nil_append]
  · rw [hletter] at hnumber
    obtain ⟨before', numeral, blanks, n, hb', hn, hblanks, rfl, hlt⟩ :=
      exists_numeral_of_scale hnumber
    refine ⟨n, f, ⟨before ++ before', numeral, blanks ++ [c], after, hb.append hb', hn,
      .letter hblanks hc, ha, ?_⟩, hlt⟩
    rw [hcs, hcore]
    simp only [List.append_assoc]
  · exact absurd hunknown hsuffix

theorem ofChars_eq_ok_iff : ofChars cs = .ok v ↔ Denotes cs v := by
  constructor
  · intro h
    obtain ⟨n, f, hw, hn, hread⟩ := exists_written_of_ofChars h nofun nofun
    split at hread
    · cases hread
    · next hproduct =>
      cases hread
      exact ⟨n, f, hw, hn, rfl, Nat.lt_of_not_le hproduct⟩
  · rintro ⟨n, f, hw, hn, rfl, hproduct⟩
    rw [ofChars_of_written hw, if_neg (Nat.not_le_of_lt hn), if_neg (Nat.not_le_of_lt hproduct)]

theorem ofChars_eq_overflow_iff :
    ofChars cs = .error .overflow ↔ ∃ n f, Written cs n f ∧ n < 2 ^ 64 ∧ 2 ^ 64 ≤ n * f := by
  constructor
  · intro h
    obtain ⟨n, f, hw, hn, hread⟩ := exists_written_of_ofChars h nofun nofun
    split at hread
    · next hproduct => exact ⟨n, f, hw, hn, hproduct⟩
    · cases hread
  · rintro ⟨n, f, hw, hn, hproduct⟩
    rw [ofChars_of_written hw, if_neg (Nat.not_le_of_lt hn), if_pos hproduct]

theorem parse_eq_ok_iff {input : String} : parse input = .ok v ↔ ofChars input.toList = .ok v := by
  rw [parse]
  split
  · next h => rw [h, Except.ok.injEq, Except.ok.injEq]
  · next h =>
    rw [h]
    exact ⟨nofun, nofun⟩

/-- **Sizes** are read as their grammar says, and any other text is refused. -/
theorem parse_denotes (input : String) :
    (∀ v, parse input = .ok v ↔ Denotes input.toList v) ∧
    ((¬ ∃ v, Denotes input.toList v) → ∃ fault : Fault,
      parse input = .error (.invalidFormat "size" (fault.message ++ ": '" ++ input ++ "'")) ∧
      (fault = .overflow ↔
        ∃ n f, Written input.toList n f ∧ n < 2 ^ 64 ∧ 2 ^ 64 ≤ n * f)) := by
  refine ⟨fun v => parse_eq_ok_iff.trans ofChars_eq_ok_iff, fun hnone => ?_⟩
  cases hread : ofChars input.toList with
  | ok v => exact absurd ⟨v, ofChars_eq_ok_iff.1 hread⟩ hnone
  | error fault =>
    refine ⟨fault, by rw [parse, hread], ?_⟩
    rw [← ofChars_eq_overflow_iff, hread, Except.error.injEq]

example : parse " +007 k\n" = .ok 7168 := by cbv

example : parse "16777216t" =
    .error (.invalidFormat "size" "size overflows: '16777216t'") := by cbv

end Size

end HistoryCache

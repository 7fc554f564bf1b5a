import MonkeySyntax.Token.Basic

namespace MonkeySyntax

def MadeOf (p : Char → Prop) (s : String) : Prop := ∀ c ∈ s.toList, p c

instance (p : Char → Prop) [DecidablePred p] (s : String) : Decidable (MadeOf p s) :=
  List.decidableBAll p s.toList

namespace MadeOf

variable {p q : Char → Prop} {s t : String}

theorem append (hs : MadeOf p s) (ht : MadeOf p t) : MadeOf p (s ++ t) := by
  intro c hc
  rw [String.toList_append, List.mem_append] at hc
  exact hc.elim (hs c) (ht c)

theorem intercalate (hs : MadeOf p s) {ss : List String} (h : ∀ t ∈ ss, MadeOf p t) :
    MadeOf p (s.intercalate ss) := by
  induction ss with
  | nil =>
    intro c hc
    contradiction
  | cons t ss ih =>
    have ht := h t List.mem_cons_self
    have hrest := ih fun u hu => h u (List.mem_cons_of_mem t hu)
    cases ss with
    | nil =>
      rw [String.intercalate_singleton]
      exact ht
    | cons u ss =>
      rw [String.intercalate_cons_cons]
      exact (ht.append hs).append hrest

theorem mono (hs : MadeOf p s) (h : ∀ c, p c → q c) : MadeOf q s :=
  fun c hc => h c (hs c hc)

end MadeOf

abbrev AllPrintable : String → Prop := MadeOf fun c => isPrintable c

def hexDigitValue (c : Char) : Nat :=
  if c.isDigit then c.toNat - '0'.toNat else c.toNat - 'a'.toNat + 10

def hexValue (cs : List Char) : Nat := cs.foldl (fun n c => 16 * n + hexDigitValue c) 0

theorem hexDigitValue_digitChar : ∀ n < 16, hexDigitValue n.digitChar = n := by decide

theorem isPrintable_digitChar : ∀ n < 16, isPrintable n.digitChar := by decide +kernel

theorem toDigits_sixteen (n : Nat) : Nat.toDigits 16 n =
    if n < 16 then [n.digitChar] else Nat.toDigits 16 (n / 16) ++ [(n % 16).digitChar] :=
  Nat.toDigits_eq_if (by decide)

theorem hexValue_toDigits (n : Nat) : hexValue (Nat.toDigits 16 n) = n := by
  induction n using Nat.strongRecOn with
  | ind n ih =>
    rw [toDigits_sixteen]
    split
    · next h => simp [hexValue, hexDigitValue_digitChar n h]
    · next h =>
      have hlast := hexDigitValue_digitChar (n % 16) (by omega)
      have hfront := ih (n / 16) (by omega)
      simp only [hexValue, List.foldl_append, List.foldl_cons, List.foldl_nil] at hfront ⊢
      omega

theorem isPrintable_of_mem_toDigits {c : Char} (n : Nat) (h : c ∈ Nat.toDigits 16 n) :
    isPrintable c := by
  induction n using Nat.strongRecOn with
  | ind n ih =>
    rw [toDigits_sixteen] at h
    split at h
    · next hn =>
      obtain rfl := List.mem_singleton.mp h
      exact isPrintable_digitChar n hn
    · next hn =>
      rcases List.mem_append.mp h with hfront | hlast
      · exact ih (n / 16) (by omega) hfront
      · obtain rfl := List.mem_singleton.mp hlast
        exact isPrintable_digitChar (n % 16) (by omega)

/-- Zeros in front leave the number that hexadecimal digits stand for as it is. -/
theorem hexValue_hexDigits (width n : Nat) : hexValue (hexDigits width n) = n := by
  have hzeros (k : Nat) : hexValue (List.replicate k '0') = 0 := by
    induction k with
    | zero => rfl
    | succ k ih => exact ih
  calc hexValue (hexDigits width n)
      = (Nat.toDigits 16 n).foldl (fun n c => 16 * n + hexDigitValue c)
          (hexValue (List.replicate (width - (Nat.toDigits 16 n).length) '0')) :=
        List.foldl_append
    _ = hexValue (Nat.toDigits 16 n) := by rw [hzeros]; rfl
    _ = n := hexValue_toDigits n

theorem length_hexDigits {width n : Nat} (hwidth : 0 < width) (h : n < Nat.pow 16 width) :
    (hexDigits width n).length = width := by
  have hle : (Nat.toDigits 16 n).length ≤ width :=
    (Nat.length_toDigits_le_iff (by decide) hwidth).mpr h
  rw [hexDigits, List.length_append, List.length_replicate]
  omega

theorem isPrintable_of_mem_hexDigits {c : Char} {width n : Nat} (h : c ∈ hexDigits width n) :
    isPrintable c := by
  rcases List.mem_append.mp h with hzero | hdigit
  · obtain rfl := List.eq_of_mem_replicate hzero
    decide +kernel
  · exact isPrintable_of_mem_toDigits n hdigit

/-- The character whose code point is written at the front of a row in `width` digits, and what
stands behind them. -/
def unescape (width : Nat) (cs : List Char) : Char × List Char :=
  (Char.ofNat (hexValue (cs.take width)), cs.drop width)

def unquoteChar? : List Char → Option (Char × List Char)
  | '\\' :: 'n' :: cs => some ('\n', cs)
  | '\\' :: 'r' :: cs => some ('\r', cs)
  | '\\' :: 't' :: cs => some ('\t', cs)
  | '\\' :: 'x' :: cs => some (unescape 2 cs)
  | '\\' :: 'u' :: cs => some (unescape 4 cs)
  | '\\' :: 'U' :: cs => some (unescape 8 cs)
  | '\\' :: c :: cs => some (c, cs)
  | c :: cs => some (c, cs)
  | [] => none

theorem unescape_hexDigits {width : Nat} {c : Char} (hwidth : 0 < width)
    (h : c.toNat < Nat.pow 16 width) (rest : List Char) :
    unescape width (hexDigits width c.toNat ++ rest) = (c, rest) := by
  have hlength := length_hexDigits hwidth h
  rw [unescape, List.take_left' hlength, List.drop_left' hlength, hexValue_hexDigits,
    Char.ofNat_toNat]

/-- A character is read back from its form between quotes, whatever follows. -/
theorem unquoteChar?_quotedChar {quote : Char} (hquote : quote = '\x27' ∨ quote = '"') (c : Char)
    (rest : List Char) : unquoteChar? (quotedChar quote c ++ rest) = some (c, rest) := by
  unfold quotedChar
  split
  · next h =>
    -- the three characters that stand behind a backslash as they are
    rcases h with rfl | rfl
    · rcases hquote with rfl | rfl <;> rfl
    · rfl
  · next h =>
    have hbackslash : c ≠ '\\' := fun heq => h (.inr heq)
    split
    · next heq => rw [heq]; rfl
    split
    · next heq => rw [heq]; rfl
    split
    · next heq => rw [heq]; rfl
    split
    · rw [List.singleton_append, unquoteChar?] <;> simp [hbackslash]
    split
    · next hlt => exact congrArg some (unescape_hexDigits (by decide) hlt rest)
    split
    · next hlt => exact congrArg some (unescape_hexDigits (by decide) hlt rest)
    · have hlt : c.toNat < Nat.pow 16 8 := c.val.toNat_lt
      exact congrArg some (unescape_hexDigits (by decide) hlt rest)

/-- Whatever character is quoted, printable ones show it. -/
theorem isPrintable_of_mem_quotedChar {quote c d : Char} (hquote : isPrintable quote)
    (h : d ∈ quotedChar quote c) : isPrintable d := by
  have hbackslash : isPrintable '\\' := by decide +kernel
  have hletters : AllPrintable "nrtxuU" := by decide +kernel
  -- an escape is a backslash, one more character and, where that is not enough, digits
  have hescape {e : Char} (he : isPrintable e) {digits : List Char}
      (hdigits : ∀ a ∈ digits, isPrintable a) (hd : d ∈ '\\' :: e :: digits) : isPrintable d := by
    simp only [List.mem_cons] at hd
    rcases hd with rfl | rfl | hd
    · exact hbackslash
    · exact he
    · exact hdigits d hd
  have hdigits (width n : Nat) : ∀ a ∈ hexDigits width n, isPrintable a :=
    fun _ ha => isPrintable_of_mem_hexDigits ha
  have hnone : ∀ a ∈ ([] : List Char), isPrintable a := by simp
  unfold quotedChar at h
  split at h
  · next hc =>
    have hshown : isPrintable c := hc.elim (fun heq => heq ▸ hquote) fun heq => heq ▸ hbackslash
    exact hescape hshown hnone h
  split at h
  · exact hescape (hletters 'n' (by decide)) hnone h
  split at h
  · exact hescape (hletters 'r' (by decide)) hnone h
  split at h
  · exact hescape (hletters 't' (by decide)) hnone h
  split at h
  · next hc =>
    obtain rfl := List.mem_singleton.mp h
    exact hc
  split at h
  · exact hescape (hletters 'x' (by decide)) (hdigits 2 c.toNat) h
  split at h
  · exact hescape (hletters 'u' (by decide)) (hdigits 4 c.toNat) h
  · exact hescape (hletters 'U' (by decide)) (hdigits 8 c.toNat) h

theorem length_unquoteChar? {cs rest : List Char} {c : Char}
    (h : unquoteChar? cs = some (c, rest)) : rest.length < cs.length := by
  unfold unquoteChar? at h
  split at h <;> simp [unescape] at h <;> obtain ⟨-, rfl⟩ := h <;> simp <;> omega

def unquoteChars (cs : List Char) : List Char :=
  match _h : unquoteChar? cs with
  | none => []
  | some (c, rest) => c :: unquoteChars rest
termination_by cs.length
decreasing_by exact length_unquoteChar? _h

def unquoted (s : String) : String :=
  String.ofList (unquoteChars s.toList.tail.dropLast)

theorem unquoteChars_of_some {cs rest : List Char} {c : Char}
    (h : unquoteChar? cs = some (c, rest)) : unquoteChars cs = c :: unquoteChars rest := by
  rw [unquoteChars]
  split
  · next hnone =>
    rw [h] at hnone
    contradiction
  · next hsome =>
    rw [h] at hsome
    cases hsome
    rfl

theorem quoteFor_cases (cs : List Char) : quoteFor cs = '\x27' ∨ quoteFor cs = '"' := by
  unfold quoteFor
  split
  · exact .inr rfl
  · exact .inl rfl

/-- Between quotes every character is read back on its own, in front of those behind it. -/
theorem unquoteChars_flatMap {quote : Char} (hquote : quote = '\x27' ∨ quote = '"')
    (cs : List Char) : unquoteChars (cs.flatMap (quotedChar quote)) = cs := by
  induction cs with
  | nil => rw [List.flatMap_nil, unquoteChars]; rfl
  | cons c cs ih =>
    rw [List.flatMap_cons, unquoteChars_of_some (unquoteChar?_quotedChar hquote c _), ih]

/-- A text is read back from its quoted form. -/
theorem unquoted_quoted (s : String) : unquoted (quoted s) = s := by
  rw [unquoted, quoted, String.toList_ofList, quotedChars, List.tail_cons, List.dropLast_concat,
    unquoteChars_flatMap (quoteFor_cases s.toList), String.ofList_toList]

example : unquoted "\"a'b\\n\"" = "a'b\n" := by cbv

theorem allPrintable_quoted (s : String) : AllPrintable (quoted s) := by
  have hquote : isPrintable (quoteFor s.toList) := by
    rcases quoteFor_cases s.toList with h | h <;> rw [h] <;> decide +kernel
  intro c hc
  rw [quoted, String.toList_ofList, quotedChars, List.mem_cons, List.mem_append,
    List.mem_flatMap, List.mem_singleton] at hc
  rcases hc with rfl | ⟨d, -, hd⟩ | rfl
  · exact hquote
  · exact isPrintable_of_mem_quotedChar hquote hd
  · exact hquote

def wholeValue : List Char → Int
  | '-' :: cs => -(Nat.ofDigitChars 10 cs 0 : Int)
  | cs => Nat.ofDigitChars 10 cs 0

theorem isDigit_of_mem_repr {c : Char} {n : Nat} (h : c ∈ n.repr.toList) : c.isDigit := by
  rw [Nat.toList_repr] at h
  exact Nat.isDigit_of_mem_toDigits (by decide) (by decide) h

theorem isPrintable_of_isDigit {c : Char} (h : c.isDigit) : isPrintable c := by
  have hbounds : 48 ≤ c.toNat ∧ c.toNat ≤ 57 := by
    simpa [Char.isDigit, UInt32.le_iff_toNat_le] using h
  rw [isPrintable, if_pos (by omega)]
  apply decide_eq_true
  omega

/-- A whole number below zero is written as a minus sign and its distance from zero. -/
theorem toList_toString_negSucc (n : Nat) :
    (toString (Int.negSucc n)).toList = '-' :: (n + 1).repr.toList :=
  calc (toString (Int.negSucc n)).toList
      = ("-" ++ (n + 1).repr).toList := rfl
    _ = '-' :: (n + 1).repr.toList := by rw [String.toList_append]; rfl

/-- A whole number is written in decimal digits, behind a minus sign where it is negative. -/
theorem eq_minus_or_isDigit {c : Char} {n : Int} (h : c ∈ (toString n).toList) :
    c = '-' ∨ c.isDigit := by
  cases n with
  | ofNat m => exact .inr (isDigit_of_mem_repr h)
  | negSucc m =>
    rw [toList_toString_negSucc, List.mem_cons] at h
    apply h.imp_right
    exact isDigit_of_mem_repr

theorem allPrintable_repr (n : Nat) : AllPrintable n.repr := by
  intro c hc
  exact isPrintable_of_isDigit (isDigit_of_mem_repr hc)

theorem allPrintable_toString (n : Int) : AllPrintable (toString n) := by
  intro c hc
  rcases eq_minus_or_isDigit hc with rfl | hdigit
  · decide +kernel
  · exact isPrintable_of_isDigit hdigit

/-- A whole number is read back from its digits. -/
theorem wholeValue_toString (n : Int) : wholeValue (toString n).toList = n := by
  have hread (m : Nat) : Nat.ofDigitChars 10 m.repr.toList 0 = m := by
    rw [Nat.toList_repr]
    exact Nat.ofDigitChars_ten_toDigits
  cases n with
  | ofNat m =>
    -- no minus sign can stand in front, for it is no digit
    have hfront (cs : List Char) : (toString (Int.ofNat m)).toList = '-' :: cs → False := by
      intro heq
      have hminus : '-' ∈ m.repr.toList := heq ▸ List.mem_cons_self
      have hdigit : '-'.isDigit := isDigit_of_mem_repr hminus
      contradiction
    rw [wholeValue]
    · exact congrArg Int.ofNat (hread m)
    · exact hfront
  | negSucc m =>
    calc wholeValue (toString (Int.negSucc m)).toList
        = -(Nat.ofDigitChars 10 (m + 1).repr.toList 0 : Int) := by
          rw [toList_toString_negSucc, wholeValue]
      _ = -((m + 1 : Nat) : Int) := by rw [hread]
      _ = Int.negSucc m := rfl

theorem Kind.ofName?_name (k : Kind) : ofName? k.name = some k := by
  cases k <;> decide

theorem Kind.allPrintable_name (k : Kind) : AllPrintable k.name := by
  cases k <;> decide +kernel

end MonkeySyntax

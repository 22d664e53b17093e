import TreeLowering.Json.Reader
import TreeLowering.Json.Writer
import TreeLowering.Proofs.JsonForms

/-!
The text of a value is read as that value.

A reader is shown to take a text off in front of any rest that does not go on with it: numbers are
the only values that a rest could go on with. Then a value is read by the level of its nesting, and
the text of a value is long enough for its levels.
-/
namespace TreeLowering

open Text Text.Reader

namespace Text.Reader

variable {α β : Type}

@[simp]
theorem pure_run (a : α) (s : List Char) : (pure a : Reader α) s = some (a, s) := rfl

@[simp]
theorem bind_run (p : Reader α) (f : α → Reader β) (s : List Char) :
    (p >>= f) s = (p s).bind fun r => f r.1 r.2 := by
  show Reader.bind p f s = _
  rw [Reader.bind]
  cases p s <;> rfl

@[simp]
theorem orElse_run (p q : Reader α) (s : List Char) : (p <|> q) s = (p s).or (q s) := by
  show Reader.orElse p (fun _ => q) s = _
  rw [Reader.orElse]
  cases p s <;> rfl

@[simp]
theorem char_cons (c d : Char) (s : List Char) :
    char c (d :: s) = if d = c then some ((), s) else none := by
  by_cases h : d = c <;> simp [char, satisfy, h]

@[simp]
theorem satisfy_cons (p : Char → Bool) (c : Char) (s : List Char) :
    satisfy p (c :: s) = if p c then some (c, s) else none := rfl

theorem option_of_some {p : Reader α} {a : α} {s t : List Char} (h : p s = some (a, t)) :
    option p s = some (some a, t) := by
  simp [option, h]

theorem option_of_none {p : Reader α} {s : List Char} (h : p s = none) :
    option p s = some (none, s) := by
  simp [option, h]

@[simp]
theorem exactly_nil (s : List Char) : exactly [] s = some ((), s) := rfl

@[simp]
theorem exactly_cons_cons (c d : Char) (cs s : List Char) :
    exactly (c :: cs) (d :: s) = if d = c then exactly cs s else none := by
  by_cases h : d = c <;> simp [exactly, h]

theorem ne_of_class (p : Char → Bool) {c d : Char} (hc : p c = true) (hd : p d = false) :
    c ≠ d := by
  rintro rfl
  simp [hc] at hd

/-- The text does not start with a character of the class. -/
def Stops (p : Char → Bool) (s : List Char) : Prop := ∀ c ∈ s.head?, p c = false

@[simp]
theorem stops_nil (p : Char → Bool) : Stops p [] := by simp [Stops]

@[simp]
theorem stops_cons {p : Char → Bool} {c : Char} {s : List Char} :
    Stops p (c :: s) ↔ p c = false := by
  simp [Stops]

theorem satisfy_of_stops {p : Char → Bool} {s : List Char} (h : Stops p s) :
    satisfy p s = none := by
  cases s with
  | nil => rfl
  | cons c s => simp [stops_cons.mp h]

theorem char_of_stops {c : Char} {s : List Char} (h : Stops (· == c) s) : char c s = none := by
  simp [char, satisfy_of_stops h]

theorem Stops.mono {p q : Char → Bool} {s : List Char} (h : Stops p s)
    (hpq : ∀ c, p c = false → q c = false) : Stops q s := fun c hc => hpq c (h c hc)

theorem takeWhile_append {p : Char → Bool} {front s : List Char} (hfront : ∀ c ∈ front, p c = true)
    (hs : Stops p s) : takeWhile p (front ++ s) = some (front, s) := by
  have hrest : s.takeWhile p = [] ∧ s.dropWhile p = s := by
    cases s with
    | nil => exact ⟨rfl, rfl⟩
    | cons c s => simp [stops_cons.mp hs]
  rw [takeWhile, List.takeWhile_append_of_pos hfront, List.dropWhile_append_of_pos hfront, hrest.1,
    hrest.2, List.append_nil]

/-- What is repeated is taken off as often as it stands there, where `P` says of a rest that it does
not go on with it. -/
theorem repeated_run {p : Reader α} {P : List Char → Prop} {text : α → List Char} {s : List Char}
    (hend : p s = none) (hs : P s) {as : List α} (hP : ∀ a ∈ as, ∀ t, P (text a ++ t))
    (h : ∀ a ∈ as, ∀ t, P t → p (text a ++ t) = some (a, t)) (bound : List Char) (acc : List α)
    (hbound : as.length ≤ bound.length) :
    repeated p bound acc (as.flatMap text ++ s) = (acc.reverse ++ as, s) := by
  induction as generalizing bound acc with
  | nil => cases bound <;> simp [repeated, hend]
  | cons a as ih =>
    cases bound with
    | nil => simp at hbound
    | cons c bound =>
      rw [List.forall_mem_cons] at hP h
      have hrest : P (as.flatMap text ++ s) := by
        cases as with
        | nil => exact hs
        | cons b as =>
          rw [List.flatMap_cons, List.append_assoc]
          exact hP.2 b List.mem_cons_self _
      have hfirst := h.1 _ hrest
      simp only [List.flatMap_cons, List.append_assoc, repeated, hfirst]
      rw [ih hP.2 h.2 bound (a :: acc) (by simpa using hbound)]
      simp

end Text.Reader

namespace Json

section Brackets

variable {α : Type}

/-- A character that a number could go on with. -/
def isNumberChar (c : Char) : Bool := c.isDigit || c == '.' || c == 'e' || c == 'E'

theorem blanks_run {s : List Char} (hs : Stops isBlank s) : blanks s = some ((), s) := by
  have htake : takeWhile isBlank ([] ++ s) = some ([], s) := takeWhile_append (by simp) hs
  simp only [List.nil_append] at htake
  simp [blanks, htake]

theorem token_run {c : Char} {s : List Char} (hc : isBlank c = false) (hs : Stops isBlank s) :
    token c (c :: s) = some ((), s) := by
  simp [token, blanks_run (stops_cons.mpr hc), blanks_run hs]

theorem token_refuses {c d : Char} {s : List Char} (hd : isBlank d = false) (hne : d ≠ c) :
    token c (d :: s) = none := by
  simp [token, blanks_run (stops_cons.mpr hd), hne]

/-- The texts of items that follow others, each after a comma. -/
def following (text : α → List Char) (as : List α) : List Char := as.flatMap fun a => ',' :: text a

/-- The texts of items, divided by commas. -/
def joined (text : α → List Char) : List α → List Char
  | [] => []
  | a :: as => text a ++ following text as

theorem intercalate_eq (text : α → List Char) (as : List α) :
    [','].intercalate (as.map text) = joined text as := by
  cases as with
  | nil => rfl
  | cons a as =>
    induction as generalizing a with
    | nil => simp [joined, following]
    | cons b as ih =>
      rw [List.map_cons, List.map_cons, List.intercalate_cons_cons, ← List.map_cons, ih b]
      simp [joined, following]

theorem length_le_following (text : α → List Char) (as : List α) :
    as.length ≤ (following text as).length := by
  induction as with
  | nil => exact Nat.le_refl 0
  | cons a as ih =>
    simp only [following, List.flatMap_cons, List.cons_append, List.length_cons,
      List.length_append] at ih ⊢
    omega

theorem length_le_joined (text : α → List Char) {as : List α} {a : α} (ha : a ∈ as) :
    (text a).length ≤ (joined text as).length := by
  cases as with
  | nil => cases ha
  | cons b as =>
    have hfollowing : a ∈ as → (text a).length ≤ (following text as).length := by
      intro ha
      obtain ⟨front, back, rfl⟩ := List.append_of_mem ha
      simp only [following, List.flatMap_append, List.flatMap_cons, List.length_append,
        List.length_cons]
      omega
    rw [joined, List.length_append]
    rcases List.mem_cons.mp ha with rfl | ha
    · omega
    · have := hfollowing ha
      omega

section Bracketed

variable {closing : Char} {item : Reader α} {text : α → List Char} {as : List α}
  (hblank : isBlank closing = false) (hcomma : closing ≠ ',')
  (hnumber : isNumberChar closing = false)
  (hstart : ∀ a ∈ as, ∃ c cs, text a = c :: cs ∧ isBlank c = false ∧ c ≠ closing)
  (hitem : ∀ a ∈ as, ∀ t, Stops isNumberChar t → item (text a ++ t) = some (a, t))

include hblank hcomma hnumber hstart hitem

theorem many_run (s : List Char) :
    many (do token ','; item) (following text as ++ closing :: s) = some (as, closing :: s) := by
  have hend : (do token ','; item) (closing :: s) = none := by
    simp [token_refuses hblank hcomma]
  have hnext : ∀ a ∈ as, ∀ t, Stops isNumberChar t →
      (do token ','; item) (',' :: text a ++ t) = some (a, t) := by
    intro a ha t ht
    obtain ⟨c, cs, hc, hblank, -⟩ := hstart a ha
    have htoken : token ',' (',' :: (text a ++ t)) = some ((), text a ++ t) :=
      token_run rfl (by rw [hc]; exact stops_cons.mpr hblank)
    simp [htoken, hitem a ha t ht]
  have hlength : as.length ≤ (following text as ++ closing :: s).length := by
    have := length_le_following text as
    simp only [List.length_append]
    omega
  have hcommas : ∀ a ∈ as, ∀ t, Stops isNumberChar (',' :: text a ++ t) := fun _ _ _ =>
    stops_cons.mpr rfl
  exact congrArg some (repeated_run hend (stops_cons.mpr hnumber) hcommas hnext _ [] hlength)

/-- A list between brackets is read if its items are, in front of anything that is not part of a
number: a comma or the closing bracket follows an item. -/
theorem bracketed_run (opening : Char) (s : List Char) :
    bracketed opening closing item (opening :: joined text as ++ closing :: s) = some (as, s) := by
  cases as with
  | nil => simp [bracketed, joined, blanks_run (stops_cons.mpr hblank)]
  | cons a as =>
    obtain ⟨⟨c, cs, htext, hc, hclosing⟩, hstart⟩ := List.forall_mem_cons.mp hstart
    rw [List.forall_mem_cons] at hitem
    have hmore : Stops isNumberChar (following text as ++ closing :: s) := by
      cases as with
      | nil => exact stops_cons.mpr hnumber
      | cons b as => exact stops_cons.mpr rfl
    have hfirst := hitem.1 _ hmore
    have hmany := many_run hblank hcomma hnumber hstart hitem.2 s
    have hopened : Stops isBlank (text a ++ (following text as ++ closing :: s)) := by
      rw [htext]
      exact stops_cons.mpr hc
    have hnot : char closing (text a ++ (following text as ++ closing :: s)) = none := by
      rw [htext]
      simp [hclosing]
    simp [bracketed, joined, sepBy1, blanks_run hopened, hnot, hfirst, hmany,
      blanks_run (stops_cons.mpr hblank)]

end Bracketed

theorem bracketed_refuses {opening closing c : Char} {item : Reader α} {s : List Char}
    (hc : c ≠ opening) : bracketed opening closing item (c :: s) = none := by
  simp [bracketed, hc]

end Brackets

section Numbers

def IsDigits (ds : List Char) : Prop := ds ≠ [] ∧ ∀ c ∈ ds, c.isDigit = true

/-- A numeral as a text can write it. -/
structure Numeral.Writable (n : Numeral) : Prop where
  whole : IsDigits n.whole
  leading : n.whole.length = 1 ∨ n.whole.head? ≠ some '0'
  fraction : ∀ ds ∈ n.fraction, IsDigits ds
  exponent : ∀ e ∈ n.exponent, IsDigits e.2

variable {s : List Char}

theorem IsDigits.stops {ds : List Char} (h : IsDigits ds) {p : Char → Bool}
    (hp : ∀ c, c.isDigit = true → p c = false) : Stops p (ds ++ s) := by
  cases ds with
  | nil => exact absurd rfl h.1
  | cons d ds => exact stops_cons.mpr (hp d (h.2 d List.mem_cons_self))

theorem digits_run {ds : List Char} (h : IsDigits ds) (hs : Stops Char.isDigit s) :
    digits (ds ++ s) = some (ds, s) := by
  simp [digits, takeWhile1, takeWhile_append h.2 hs, check, h.1]

theorem wholePart_run {ds : List Char} (h : IsDigits ds)
    (hleading : ds.length = 1 ∨ ds.head? ≠ some '0') (hs : Stops Char.isDigit s) :
    wholePart (ds ++ s) = some (ds, s) := by
  simp [wholePart, digits_run h hs, check, hleading]

def fractionText : Option (List Char) → List Char
  | none => []
  | some ds => '.' :: ds

def exponentText : Option (Bool × List Char) → List Char
  | none => []
  | some (true, ds) => 'e' :: '-' :: ds
  | some (false, ds) => 'e' :: ds

theorem Numeral.toList_render (n : Numeral) :
    n.render.toList = (if n.negative then ['-'] else []) ++
      (n.whole ++ (fractionText n.fraction ++ exponentText n.exponent)) := by
  obtain ⟨negative, whole, fraction, exponent⟩ := n
  cases negative <;> cases fraction <;> rcases exponent with _ | ⟨_ | _, ds⟩ <;>
    simp [Numeral.render, fractionText, exponentText]

theorem stops_exponent {p : Char → Bool} (exponent : Option (Bool × List Char)) (hp : p 'e' = false)
    (hs : Stops p s) : Stops p (exponentText exponent ++ s) := by
  rcases exponent with _ | ⟨_ | _, ds⟩
  · exact hs
  · exact stops_cons.mpr hp
  · exact stops_cons.mpr hp

theorem stops_fraction {p : Char → Bool} (fraction : Option (List Char)) (hp : p '.' = false)
    (hs : Stops p s) : Stops p (fractionText fraction ++ s) := by
  cases fraction with
  | none => exact hs
  | some ds => exact stops_cons.mpr hp

theorem fraction_run {fraction : Option (List Char)} (h : ∀ ds ∈ fraction, IsDigits ds)
    (hs : Stops Char.isDigit s) (hdot : Stops (· == '.') s) :
    option fractionPart (fractionText fraction ++ s) = some (fraction, s) := by
  cases fraction with
  | none => exact option_of_none (by simp [fractionPart, fractionText, char_of_stops hdot])
  | some ds =>
    refine option_of_some ?_
    simp [fractionPart, fractionText, digits_run (h ds rfl) hs]

theorem exponent_run {exponent : Option (Bool × List Char)} (h : ∀ e ∈ exponent, IsDigits e.2)
    (hs : Stops isNumberChar s) :
    option exponentPart (exponentText exponent ++ s) = some (exponent, s) := by
  have hdigit : Stops Char.isDigit s := hs.mono fun c hc => by simp_all [isNumberChar]
  rcases exponent with _ | ⟨negative, ds⟩
  · have hmark : Stops (fun c => c == 'e' || c == 'E') s := hs.mono fun c hc => by
      simp_all [isNumberChar]
    exact option_of_none (by simp [exponentPart, exponentText, satisfy_of_stops hmark])
  · refine option_of_some ?_
    have hds : IsDigits ds := h (negative, ds) rfl
    have hread := digits_run hds hdigit
    cases negative with
    | true =>
      have hsign : option (satisfy fun c => c == '+' || c == '-') ('-' :: (ds ++ s)) =
          some (some '-', ds ++ s) := option_of_some (by simp)
      simp [exponentPart, exponentText, hsign, hread]
    | false =>
      have hsign : option (satisfy fun c => c == '+' || c == '-') (ds ++ s) =
          some (none, ds ++ s) := by
        refine option_of_none (satisfy_of_stops (hds.stops fun c hc => ?_))
        simp [ne_of_class _ hc (d := '+') rfl, ne_of_class _ hc (d := '-') rfl]
      simp [exponentPart, exponentText, hsign, hread]

theorem sign_run (negative : Bool) {ds : List Char} (h : IsDigits ds) :
    option (char '-') ((if negative then ['-'] else []) ++ (ds ++ s)) =
      some (if negative then some () else none, ds ++ s) := by
  cases negative with
  | true => exact option_of_some (by simp)
  | false =>
    refine option_of_none (char_of_stops (h.stops fun c hc => ?_))
    exact beq_eq_false_iff_ne.mpr (ne_of_class _ hc rfl)

theorem numeral_run {n : Numeral} (h : n.Writable) (hs : Stops isNumberChar s) :
    numeral (n.render.toList ++ s) = some (n, s) := by
  have hexponent := exponent_run h.exponent hs
  have hdigit : Stops Char.isDigit (exponentText n.exponent ++ s) :=
    stops_exponent _ rfl (hs.mono fun c hc => by simp_all [isNumberChar])
  have hdot : Stops (· == '.') (exponentText n.exponent ++ s) :=
    stops_exponent _ rfl (hs.mono fun c hc => by simp_all [isNumberChar])
  have hfraction := fraction_run h.fraction hdigit hdot
  have hwhole := wholePart_run h.whole h.leading (stops_fraction n.fraction rfl hdigit)
  have hsign := sign_run n.negative (s := fractionText n.fraction ++ (exponentText n.exponent ++ s))
    h.whole
  have hnegative : (if n.negative then some () else none).isSome = n.negative := by
    cases n.negative <;> rfl
  rw [n.toList_render, List.append_assoc, List.append_assoc, List.append_assoc]
  simp [numeral, hsign, hwhole, hfraction, hexponent, hnegative]

theorem head?_toDigits_ne_zero {n : Nat} (hn : 0 < n) : (Nat.toDigits 10 n).head? ≠ some '0' := by
  induction n using Nat.strongRecOn with
  | ind n ih =>
    by_cases hsmall : n < 10
    · rw [Nat.toDigits_of_lt_base hsmall]
      have hdigit : ∀ n < 10, 0 < n → [n.digitChar].head? ≠ some '0' := by decide
      exact hdigit n hsmall hn
    · rw [Nat.toDigits_of_base_le (by decide) (by omega),
        List.head?_append_of_ne_nil _ Nat.toDigits_ne_nil]
      exact ih (n / 10) (by omega) (by omega)

/-- A character that a number can start with. -/
def startsNumber (c : Char) : Bool := c == '-' || c.isDigit

theorem Numeral.Writable.start {n : Numeral} (h : n.Writable) :
    ∃ c cs, n.render.toList = c :: cs ∧ startsNumber c = true := by
  rw [n.toList_render]
  cases n.negative with
  | true => exact ⟨_, _, rfl, rfl⟩
  | false =>
    obtain ⟨d, ds, hds⟩ := List.exists_cons_of_ne_nil h.whole.1
    have hd : d.isDigit = true := h.whole.2 d (by rw [hds]; exact List.mem_cons_self)
    rw [hds]
    exact ⟨_, _, rfl, by simp [startsNumber, hd]⟩

theorem numeral_refuses {c : Char} (hc : startsNumber c = false) : numeral (c :: s) = none := by
  obtain ⟨hminus, hdigit⟩ : c ≠ '-' ∧ c.isDigit = false := by simpa [startsNumber] using hc
  have hsign : option (char '-') (c :: s) = some (none, c :: s) := option_of_none (by simp [hminus])
  have hwhole : wholePart (c :: s) = none := by
    simp [wholePart, digits, takeWhile1, takeWhile, check, fail, hdigit]
  simp [numeral, hsign, hwhole]

theorem Numeral.writable_ofInt (n : Int) : (ofInt n).Writable where
  whole := ⟨Nat.toDigits_ne_nil, fun _ => Nat.isDigit_of_mem_toDigits (by decide) (by decide)⟩
  leading := by
    by_cases hn : n.natAbs = 0
    · left
      simp [ofInt, hn]
    · exact .inr (head?_toDigits_ne_zero (by omega))
  fraction _ h := by cases h
  exponent _ h := by cases h

end Numbers

section Strings

theorem hexDigit_run : ∀ n < 16, hexDigit? (hexDigit n) = some n := by decide

theorem charOf?_toNat (c : Char) : charOf? c.toNat = some c := by
  have hvalid : c.toNat.isValidChar := c.valid
  rw [charOf?, dif_pos hvalid]
  exact congrArg some (Char.ext rfl)

theorem stringParts_escapeChar (c : Char) (acc : List StringPart) (s : List Char) :
    stringParts acc (escapeChar c ++ s) = stringParts (.char c :: acc) s := by
  by_cases hquote : c = '"'
  · subst hquote
    rfl
  by_cases hslash : c = '\\'
  · subst hslash
    rfl
  by_cases hcontrol : c.val < 0x20
  · have hlt : c.toNat < 32 := hcontrol
    have hhigh := hexDigit_run (c.toNat / 16) (by omega)
    have hlow := hexDigit_run (c.toNat % 16) (by omega)
    have hunit : numberOf? 16 ['0', '0', hexDigit (c.toNat / 16), hexDigit (c.toNat % 16)] =
        some c.toNat := by
      have hzero : hexDigit? '0' = some 0 := rfl
      have hdigits : c.toNat / 16 < 16 ∧ c.toNat % 16 < 16 ∧
          c.toNat / 16 * 16 + c.toNat % 16 = c.toNat := by omega
      simp [numberOf?, hzero, hhigh, hlow, hdigits]
    have hescape : escapeChar c =
        ['\\', 'u', '0', '0', hexDigit (c.toNat / 16), hexDigit (c.toNat % 16)] := by
      simp [escapeChar, hquote, hslash, hcontrol]
    rw [hescape]
    simp [stringParts, hunit, StringPart.ofUnit, charOf?_toNat]
  · have hescape : escapeChar c = [c] := by simp [escapeChar, hquote, hslash, hcontrol]
    rw [hescape]
    simp [stringParts, hslash, hcontrol]

theorem stringParts_run (cs : List Char) (acc : List StringPart) (s : List Char) :
    stringParts acc (cs.flatMap escapeChar ++ '"' :: s) =
      some (acc.reverse ++ cs.map .char, s) := by
  induction cs generalizing acc with
  | nil => simp [stringParts]
  | cons c cs ih =>
    rw [List.flatMap_cons, List.append_assoc, stringParts_escapeChar, ih]
    simp

theorem joinParts_chars (cs : List Char) : joinParts (cs.map .char) = some cs := by
  induction cs with
  | nil => rfl
  | cons c cs ih => simp [joinParts, ih]

theorem toList_quoted (t : String) :
    (quoted t).toList = '"' :: (t.toList.flatMap escapeChar ++ ['"']) := by
  simp [quoted]

theorem stringLiteral_run (t : String) (s : List Char) :
    stringLiteral ((quoted t).toList ++ s) = some (some t, s) := by
  have hparts := stringParts_run t.toList [] s
  rw [toList_quoted, List.cons_append, List.append_assoc, List.singleton_append]
  rw [stringLiteral, bind_run, char_cons, if_pos rfl]
  refine (bind_run _ _ _).trans ?_
  simp [hparts, joinParts_chars]

theorem stringLiteral_refuses {c : Char} {s : List Char} (hc : c ≠ '"') :
    stringLiteral (c :: s) = none := by
  simp [stringLiteral, hc]

end Strings

namespace Value

/-- A value as a text can write it: numbers are numerals, and strings are texts. -/
inductive Writable : Value → Prop
  | null : Writable .null
  | bool (b : Bool) : Writable (.bool b)
  | number {n : Numeral} (h : n.Writable) : Writable (.number n)
  | text (t : String) : Writable (.string (some t))
  | array {items : List Value} (each : ∀ v ∈ items, Writable v) : Writable (.array items)
  | object {members : List (Option String × Value)} (keys : ∀ m ∈ members, m.1.isSome = true)
    (each : ∀ m ∈ members, Writable m.2) : Writable (.object members)

/-- The text of a member of an object. -/
def memberText (m : Option String × Value) : List Char :=
  (quoted (m.1.getD "")).toList ++ ':' :: m.2.render.toList

theorem renderItems_eq (items : List Value) : renderItems items = items.map render := by
  induction items with
  | nil => rfl
  | cons v rest ih => rw [renderItems, ih, List.map_cons]

theorem renderMembers_eq (members : List (Option String × Value)) :
    (renderMembers members).map String.toList = members.map memberText := by
  induction members with
  | nil => rfl
  | cons m rest ih => simp [renderMembers, ih, memberText]

theorem toList_render_array (items : List Value) :
    (Value.array items).render.toList = '[' :: (joined (·.render.toList) items ++ [']']) := by
  have hjoined := intercalate_eq (fun v : Value => v.render.toList) items
  simp only [render, renderItems_eq, String.toList_append, String.toList_intercalate, List.map_map]
  rw [← hjoined]
  rfl

theorem toList_render_object (members : List (Option String × Value)) :
    (Value.object members).render.toList = '\x7b' :: (joined memberText members ++ ['\x7d']) := by
  simp only [render, String.toList_append, String.toList_intercalate, renderMembers_eq]
  rw [← intercalate_eq]
  rfl

/-- The first character of a value's text is no blank and no bracket that closes. -/
theorem Writable.start {v : Value} (h : v.Writable) :
    ∃ c cs, v.render.toList = c :: cs ∧ isBlank c = false ∧ c ≠ ']' := by
  cases h with
  | null => exact ⟨_, _, rfl, rfl, by decide⟩
  | bool b => cases b <;> exact ⟨_, _, rfl, rfl, by decide⟩
  | number h =>
    obtain ⟨c, cs, hc, hstart⟩ := h.start
    have hne : ∀ d, startsNumber d = false → c ≠ d := fun _ => ne_of_class _ hstart
    have hblank : isBlank c = false := by
      simp [isBlank, hne ' ' rfl, hne '\n' rfl, hne '\t' rfl, hne '\r' rfl]
    exact ⟨c, cs, hc, hblank, hne ']' rfl⟩
  | text t => exact ⟨_, _, toList_quoted t, rfl, by decide⟩
  | array each => exact ⟨_, _, toList_render_array _, rfl, by decide⟩
  | object keys each => exact ⟨_, _, toList_render_object _, rfl, by decide⟩

/-- The text of a member is read as the member, if the text of its value is. -/
theorem member_run {k : Nat} {m : Option String × Value} {s : List Char} (hkey : m.1.isSome = true)
    (hm : m.2.Writable) (hvalue : valueWithin k (m.2.render.toList ++ s) = some (m.2, s)) :
    (do
      let key ← stringLiteral
      token ':'
      return (key, ← valueWithin k)) (memberText m ++ s) = some (m, s) := by
  obtain ⟨key, v⟩ := m
  obtain ⟨name, rfl⟩ := Option.isSome_iff_exists.mp hkey
  obtain ⟨c, cs, hc, hblank, -⟩ := hm.start
  have hstops : Stops isBlank (v.render.toList ++ s) := by
    rw [hc]
    exact stops_cons.mpr hblank
  have hcolon : token ':' (':' :: (v.render.toList ++ s)) = some ((), v.render.toList ++ s) :=
    token_run rfl hstops
  have hname := stringLiteral_run name (':' :: (v.render.toList ++ s))
  simp [memberText, hname, hcolon, hvalue]

/-- The text of a value is read as the value, on more levels than it nests, in front of anything
that no number goes on with. -/
theorem valueWithin_run {k : Nat} {v : Value} (hv : v.Writable) (hk : v.depth < k) {s : List Char}
    (hs : Stops isNumberChar s) : valueWithin k (v.render.toList ++ s) = some (v, s) := by
  induction k generalizing v s with
  | zero => exact absurd hk (Nat.not_lt_zero _)
  | succ k ih =>
    cases hv with
    | null => simp [valueWithin, render]
    | bool b => cases b <;> simp [valueWithin, render]
    | @number n h =>
      have hread := numeral_run h hs
      obtain ⟨c, cs, hc, hstart⟩ := h.start
      have hne : ∀ d, startsNumber d = false → c ≠ d := fun _ => ne_of_class _ hstart
      rw [render]
      rw [hc] at hread ⊢
      simp only [List.cons_append] at hread ⊢
      simp [valueWithin, hne 'n' rfl, hne 't' rfl, hne 'f' rfl, hread,
        stringLiteral_refuses (hne '"' rfl)]
    | text t =>
      have hread := stringLiteral_run t s
      rw [render]
      rw [toList_quoted] at hread ⊢
      simp only [List.cons_append, List.append_assoc, List.nil_append] at hread ⊢
      simp [valueWithin, hread]
    | @array items each =>
      have hdepth : ∀ v ∈ items, v.depth < k := by
        rw [Value.depth] at hk
        intro v hv
        have := depthOfItems_le_iff.mp (Nat.le_refl _) v hv
        omega
      have hstart : ∀ v ∈ items, ∃ c cs, v.render.toList = c :: cs ∧ isBlank c = false ∧ c ≠ ']' :=
        fun v hv => (each v hv).start
      have hread := bracketed_run (by decide) (by decide) (by decide) hstart
        (fun v hv t ht => ih (each v hv) (hdepth v hv) ht) '[' s
      rw [toList_render_array]
      simp only [List.cons_append, List.append_assoc] at hread ⊢
      simp [valueWithin, stringLiteral_refuses, numeral_refuses, startsNumber, hread]
    | @object members keys each =>
      have hdepth : ∀ m ∈ members, m.2.depth < k := by
        rw [Value.depth] at hk
        intro m hm
        have := depthOfMembers_le_iff.mp (Nat.le_refl _) m hm
        omega
      have hstart : ∀ m ∈ members,
          ∃ c cs, memberText m = c :: cs ∧ isBlank c = false ∧ c ≠ '\x7d' := by
        intro m _
        rw [memberText, toList_quoted]
        exact ⟨_, _, rfl, rfl, by decide⟩
      have hread := bracketed_run (by decide) (by decide) (by decide) hstart
        (fun m hm t ht => member_run (keys m hm) (each m hm) (ih (each m hm) (hdepth m hm) ht))
        '\x7b' s
      rw [toList_render_object]
      simp only [List.cons_append, List.append_assoc] at hread ⊢
      simp [valueWithin, stringLiteral_refuses, numeral_refuses, bracketed_refuses, startsNumber,
        hread]

/-- Each level of nesting takes a character of the text. -/
theorem depth_le_length {k : Nat} {v : Value} (hk : v.depth ≤ k) :
    v.depth ≤ v.render.toList.length := by
  induction k generalizing v with
  | zero => omega
  | succ k ih =>
    cases v with
    | array items =>
      rw [depth, Nat.add_le_add_iff_right, depthOfItems_le_iff] at hk
      have hitems : depthOfItems items ≤ (joined (·.render.toList) items).length :=
        depthOfItems_le_iff.mpr fun v hv =>
          Nat.le_trans (ih (hk v hv)) (length_le_joined (·.render.toList) hv)
      rw [depth, toList_render_array, List.length_cons, List.length_append]
      omega
    | object members =>
      rw [depth, Nat.add_le_add_iff_right, depthOfMembers_le_iff] at hk
      have hmembers : depthOfMembers members ≤ (joined memberText members).length := by
        refine depthOfMembers_le_iff.mpr fun m hm => ?_
        have hvalue := ih (hk m hm)
        have hmember := length_le_joined memberText hm
        simp only [memberText, List.length_append, List.length_cons] at hmember
        omega
      rw [depth, toList_render_object, List.length_cons, List.length_append]
      omega
    | _ => exact Nat.zero_le _

theorem ofText?_render {v : Value} (hv : v.Writable) : Value.ofText? v.render = some v := by
  have hlevels : v.depth < v.render.length + 1 := by
    have := depth_le_length (Nat.le_refl v.depth)
    rw [String.length_toList] at this
    omega
  have hread := valueWithin_run hv hlevels (stops_nil _)
  obtain ⟨c, cs, hc, hblank, -⟩ := hv.start
  have hblanks : blanks v.render.toList = some ((), v.render.toList) :=
    blanks_run (by rw [hc]; exact stops_cons.mpr hblank)
  rw [List.append_nil] at hread
  simp [Value.ofText?, Reader.run, hblanks, hread, blanks_run]

end Value

end Json

end TreeLowering

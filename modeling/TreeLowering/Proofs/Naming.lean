import TreeLowering.State

/-!
Target names that never meet.

The characters of a target name tell what it was made from. After a `$` stands `q`, `e` or `at`
where a character of the source was written out, and a digit, a `v`, another `$` or nothing where
the name itself has ended; so `unspell` reads the source name back, and what is left over is the
version.
Invented names and those of attributes start with a `$`, which the name of a variable never does.
-/
namespace TreeLowering.Identifier

/-- The names of variables and attributes that a front end hands over. -/
def IsSourceName (name : String) : Prop :=
  name ≠ "" ∧ '$' ∉ name.toList ∧ name.toList.head? ∉ [some '?', some '!', some '@']

instance : DecidablePred IsSourceName := fun _ => inferInstanceAs (Decidable (_ ∧ _ ∧ _))

/-- Reads a spelled name back, up to the `$` that does not spell a character. -/
def unspell : List Char → List Char × List Char
  | '$' :: 'q' :: rest => ('?' :: (unspell rest).1, (unspell rest).2)
  | '$' :: 'e' :: rest => ('!' :: (unspell rest).1, (unspell rest).2)
  | '$' :: 'a' :: 't' :: rest => ('@' :: (unspell rest).1, (unspell rest).2)
  | '$' :: rest => ([], '$' :: rest)
  | c :: rest => (c :: (unspell rest).1, (unspell rest).2)
  | [] => ([], [])

/-- What may stand behind a spelled name. -/
def EndsName : List Char → Prop
  | [] => True
  | ['$'] => True
  | '$' :: c :: _ => c ≠ 'q' ∧ c ≠ 'e' ∧ c ≠ 'a'
  | _ => False

theorem unspell_of_endsName {ending : List Char} (h : EndsName ending) :
    unspell ending = ([], ending) := by
  unfold EndsName at h
  split at h
  · rfl
  · rfl
  next c rest =>
    obtain ⟨hq, he, ha⟩ := h
    rw [unspell.eq_4] <;> simp_all
  · cases h

theorem unspell_cons {c : Char} (h : c ≠ '$') (rest : List Char) :
    unspell (c :: rest) = (c :: (unspell rest).1, (unspell rest).2) := by
  rw [unspell.eq_5] <;> simp [h]

theorem unspell_spelled {name ending : List Char} (hname : '$' ∉ name) (h : EndsName ending) :
    unspell (name.flatMap escapeChar ++ ending) = (name, ending) := by
  induction name with
  | nil => simpa using unspell_of_endsName h
  | cons c rest ih =>
    simp only [List.mem_cons, not_or] at hname
    have hrest := ih hname.2
    rw [List.flatMap_cons, List.append_assoc]
    by_cases hq : c = '?'
    · simp [hq, escapeChar, unspell, hrest]
    by_cases he : c = '!'
    · simp [he, escapeChar, unspell, hrest]
    by_cases ha : c = '@'
    · simp [ha, escapeChar, unspell, hrest]
    have hplain : escapeChar c = [c] := by simp [escapeChar]
    rw [hplain, List.singleton_append, unspell_cons (Ne.symm hname.1), hrest]

theorem eq_and_eq_of_spelled {x y ex ey : List Char} (hx : '$' ∉ x) (hy : '$' ∉ y)
    (hex : EndsName ex) (hey : EndsName ey)
    (h : x.flatMap escapeChar ++ ex = y.flatMap escapeChar ++ ey) : x = y ∧ ex = ey := by
  have hread := congrArg unspell h
  rw [unspell_spelled hx hex, unspell_spelled hy hey] at hread
  exact Prod.mk.inj hread

/-! What stands behind the spelling of a name. -/

def versionMark (version : Nat) : List Char :=
  if version = 0 then [] else '$' :: (toString version).toList

def reservedMark (name : String) : List Char :=
  if isReserved (String.ofList (name.toList.flatMap escapeChar)) then ['$'] else []

theorem toList_versioned (base : String) (version : Nat) :
    (versioned base version).toList = base.toList ++ versionMark version := by
  unfold versioned versionMark
  split <;> simp

theorem toList_escape (name : String) :
    (escape name).toList = name.toList.flatMap escapeChar ++ reservedMark name := by
  unfold escape reservedMark
  split <;> simp_all

theorem toString_inj {m n : Nat} (h : (toString m).toList = (toString n).toList) : m = n := by
  have hread := congrArg (fun digits => Nat.ofDigitChars 10 digits 0) h
  simpa [Nat.toString_eq_ofList_toDigits] using hread

theorem versionMark_inj {m n : Nat} (h : versionMark m = versionMark n) : m = n := by
  unfold versionMark at h
  split at h <;> split at h
  · omega
  · cases h
  · cases h
  · exact toString_inj (List.cons.inj h).2

theorem isDigit_of_mem_toString {n : Nat} {c : Char} (h : c ∈ (toString n).toList) :
    c.isDigit = true := by
  rw [Nat.toString_eq_ofList_toDigits, String.toList_ofList] at h
  exact Nat.isDigit_of_mem_toDigits (by omega) (by omega) h

theorem endsName_versionMark (version : Nat) : EndsName (versionMark version) := by
  unfold versionMark
  split
  · trivial
  · cases hdigits : (toString version).toList with
    | nil => trivial
    | cons c rest =>
      have hc := isDigit_of_mem_toString (hdigits ▸ List.mem_cons_self : c ∈ _)
      refine ⟨?_, ?_, ?_⟩ <;> rintro rfl <;> simp at hc

/-! Variables. -/

/-- The target name of a version of a variable, where functions of those names can be called. -/
def ofVariable (functions : List String) (name : String) (version : Nat) : String :=
  versioned (if functions.contains (escape name) then besideFunction (escape name) else escape name)
    version

def functionMark (functions : List String) (name : String) : List Char :=
  if functions.contains (escape name) then ['$', 'v'] else []

theorem toList_ofVariable (functions : List String) (name : String) (version : Nat) :
    (ofVariable functions name version).toList = name.toList.flatMap escapeChar ++
      (reservedMark name ++ functionMark functions name ++ versionMark version) := by
  unfold ofVariable functionMark
  rw [toList_versioned]
  split <;> simp [besideFunction, toList_escape]

theorem endsName_marks (functions : List String) (name : String) (version : Nat) :
    EndsName (reservedMark name ++ functionMark functions name ++ versionMark version) := by
  have hversion := endsName_versionMark version
  unfold reservedMark functionMark
  split <;> split
  · exact ⟨by decide, by decide, by decide⟩
  · unfold versionMark
    split
    · trivial
    · exact ⟨by decide, by decide, by decide⟩
  · exact ⟨by decide, by decide, by decide⟩
  · exact hversion

/-- A target name is read back whatever functions surround the variable, if both names are marked
for them alike. -/
theorem ofVariable_inj_across {fs gs : List String} {x y : String} {m n : Nat}
    (hx : IsSourceName x) (hy : IsSourceName y)
    (hmark : x = y → functionMark fs x = functionMark gs y)
    (h : ofVariable fs x m = ofVariable gs y n) : x = y ∧ m = n := by
  have hlist := congrArg String.toList h
  rw [toList_ofVariable, toList_ofVariable] at hlist
  obtain ⟨hname, hmarks⟩ := eq_and_eq_of_spelled hx.2.1 hy.2.1 (endsName_marks fs x m)
    (endsName_marks gs y n) hlist
  obtain rfl := String.toList_inj.mp hname
  rw [hmark rfl] at hmarks
  exact ⟨rfl, versionMark_inj (List.append_cancel_left hmarks)⟩

/-- A target name belongs to one version of one variable. -/
theorem ofVariable_inj {functions : List String} {x y : String} {m n : Nat}
    (hx : IsSourceName x) (hy : IsSourceName y)
    (h : ofVariable functions x m = ofVariable functions y n) : x = y ∧ m = n :=
  ofVariable_inj_across hx hy (fun hxy => hxy ▸ rfl) h

/-- The name of a variable starts as the variable does, not with a `$`. -/
theorem head?_ofVariable (functions : List String) {x : String} (hx : IsSourceName x) (n : Nat) :
    (ofVariable functions x n).toList.head? ≠ some '$' := by
  obtain ⟨hne, hfree, hhead⟩ := hx
  rw [toList_ofVariable]
  cases hlist : x.toList with
  | nil => exact absurd (String.toList_eq_nil_iff.mp hlist) hne
  | cons c rest =>
    rw [hlist] at hfree hhead
    have hplain : escapeChar c = [c] := by
      unfold escapeChar
      split <;> simp_all
    rw [List.flatMap_cons, hplain]
    intro hc
    simp_all

/-! Names that start with a `$`. -/

/-- What the lowering invents names for. -/
def stems : List String := ["m", "case", "acc", "gen", "arg"]

theorem toList_invented (stem : String) (n : Nat) :
    (invented stem n).toList = '$' :: (stem.toList ++ (toString n).toList) := by
  simp [invented]

theorem ofVariable_ne_invented {functions : List String} {x stem : String} {m n : Nat}
    (hx : IsSourceName x) : ofVariable functions x m ≠ invented stem n := by
  intro h
  apply head?_ofVariable functions hx m
  rw [h, toList_invented]
  rfl

theorem takeWhile_invented {stem : String} (h : stem ∈ stems) (n : Nat) :
    (invented stem n).toList.takeWhile (!·.isDigit) = '$' :: stem.toList := by
  have hstem : stem.toList.all (!·.isDigit) = true := by
    simp only [stems, List.mem_cons, List.not_mem_nil, or_false] at h
    rcases h with rfl | rfl | rfl | rfl | rfl <;> decide
  have hdigits : (toString n).toList.takeWhile (!·.isDigit) = [] := by
    cases hlist : (toString n).toList with
    | nil => rfl
    | cons c rest =>
      have hc := isDigit_of_mem_toString (hlist ▸ List.mem_cons_self : c ∈ (toString n).toList)
      simp [hc]
  have hdollar : '$'.isDigit = false := by decide
  rw [toList_invented, List.takeWhile_cons_of_pos (by simp [hdollar]),
    List.takeWhile_append_of_pos (List.all_eq_true.mp hstem), hdigits, List.append_nil]

/-- An invented name tells what it was invented for, and its number. -/
theorem invented_inj {stem stem' : String} {m n : Nat} (hs : stem ∈ stems) (hs' : stem' ∈ stems)
    (h : invented stem m = invented stem' n) : stem = stem' ∧ m = n := by
  have hstem := congrArg (fun name => name.toList.takeWhile (!·.isDigit)) h
  simp only [takeWhile_invented hs, takeWhile_invented hs', List.cons.injEq, true_and] at hstem
  obtain rfl := String.toList_inj.mp hstem
  have hlist := congrArg String.toList h
  rw [toList_invented, toList_invented] at hlist
  exact ⟨rfl, toString_inj (List.append_cancel_left (List.cons.inj hlist).2)⟩

theorem toList_ofAttribute (name : String) (version : Nat) :
    (versioned (ofAttribute name) version).toList =
      "$attr_".toList ++ (name.toList.flatMap escapeChar ++
        (reservedMark name ++ versionMark version)) := by
  simp [toList_versioned, ofAttribute, toList_escape]

theorem ofAttribute_inj {x y : String} {m n : Nat} (hx : IsSourceName x) (hy : IsSourceName y)
    (h : versioned (ofAttribute x) m = versioned (ofAttribute y) n) : x = y ∧ m = n := by
  have hlist := congrArg String.toList h
  rw [toList_ofAttribute, toList_ofAttribute] at hlist
  have hends : ∀ name version, EndsName (reservedMark name ++ versionMark version) :=
    fun name version => by
      simpa [functionMark] using endsName_marks [] name version
  obtain ⟨hname, hmarks⟩ := eq_and_eq_of_spelled hx.2.1 hy.2.1 (hends x m) (hends y n)
    (List.append_cancel_left hlist)
  obtain rfl := String.toList_inj.mp hname
  exact ⟨rfl, versionMark_inj (List.append_cancel_left hmarks)⟩

theorem ofVariable_ne_ofAttribute {functions : List String} {x y : String} {m n : Nat}
    (hx : IsSourceName x) : ofVariable functions x m ≠ versioned (ofAttribute y) n := by
  intro h
  apply head?_ofVariable functions hx m
  rw [h, toList_ofAttribute]
  rfl

theorem invented_ne_ofAttribute {stem y : String} {m n : Nat} (hs : stem ∈ stems) :
    invented stem m ≠ versioned (ofAttribute y) n := by
  intro h
  have hlist := congrArg String.toList h
  rw [toList_invented, toList_ofAttribute] at hlist
  simp only [stems, List.mem_cons, List.not_mem_nil, or_false] at hs
  rcases hs with rfl | rfl | rfl | rfl | rfl <;> simp at hlist

/-! Joined names. -/

theorem mem_intercalate {x c : Char} {ls : List (List Char)} (h : c ∈ [x].intercalate ls) :
    c = x ∨ ∃ l ∈ ls, c ∈ l := by
  induction ls with
  | nil => simp at h
  | cons l rest ih =>
    cases rest with
    | nil => exact .inr ⟨l, List.mem_cons_self, by simpa using h⟩
    | cons l' rest =>
      rw [List.intercalate_cons_cons, List.mem_append, List.mem_append] at h
      rcases h with (h | h) | h
      · exact .inr ⟨l, List.mem_cons_self, h⟩
      · exact .inl (List.mem_singleton.mp h)
      · rcases ih h with hx | ⟨k, hk, hc⟩
        · exact .inl hx
        · exact .inr ⟨k, List.mem_cons_of_mem _ hk, hc⟩

end TreeLowering.Identifier

import Mathlib.Data.Set.Function
import TreeLowering.Proofs.Naming

/-!
The naming scheme as a whole.

Every target name is made for one purpose: a version of a variable, of a variable beside a function,
of an attribute, a numbered invention, or one of the two fixed parameters of generated functions.
The characters tell the purpose apart (`Purpose.Kind.ofChars`), and within one kind the name is read
back by `unspell`. Module names join their segments with the `$` that no segment holds.
-/
namespace TreeLowering.Identifier

/-- What a target name is made for. -/
inductive Purpose where
  | plain (name : String) (version : Nat)
  | besideFunction (name : String) (version : Nat)
  | ofAttribute (name : String) (version : Nat)
  | invented (stem : String) (number : Nat)
  | structValues
  | exceptionAttributes
  deriving DecidableEq, Repr

namespace Purpose

def spelling : Purpose → String
  | .plain name version => versioned (escape name) version
  | .besideFunction name version => versioned (Identifier.besideFunction (escape name)) version
  | .ofAttribute name version => versioned (Identifier.ofAttribute name) version
  | .invented stem number => Identifier.invented stem number
  | .structValues => "$values"
  | .exceptionAttributes => "$attrs"

/-- The purposes that a lowering has names for. -/
def Arises : Purpose → Prop
  | .plain name _ | .besideFunction name _ | .ofAttribute name _ => IsSourceName name
  | .invented stem _ => stem ∈ stems
  | .structValues | .exceptionAttributes => True

inductive Kind where
  | plain | besideFunction | ofAttribute | invented | structValues | exceptionAttributes
  deriving DecidableEq, Repr

def kind : Purpose → Kind
  | .plain _ _ => .plain
  | .besideFunction _ _ => .besideFunction
  | .ofAttribute _ _ => .ofAttribute
  | .invented _ _ => .invented
  | .structValues => .structValues
  | .exceptionAttributes => .exceptionAttributes

/-- Reads the kind of a purpose off its spelling: of what follows a source name, only the mark of a
variable beside a function holds a `v`. -/
def Kind.ofChars : List Char → Kind
  | '$' :: 'v' :: _ => .structValues
  | '$' :: 'a' :: 't' :: 't' :: 'r' :: 's' :: _ => .exceptionAttributes
  | '$' :: 'a' :: 't' :: 't' :: 'r' :: '_' :: _ => .ofAttribute
  | '$' :: _ => .invented
  | cs => if 'v' ∈ (unspell cs).2 then .besideFunction else .plain

theorem spelling_plain (name : String) (version : Nat) :
    (Purpose.plain name version).spelling = ofVariable [] name version := by
  simp [spelling, ofVariable]

theorem spelling_besideFunction (name : String) (version : Nat) :
    (Purpose.besideFunction name version).spelling = ofVariable [escape name] name version := by
  simp [spelling, ofVariable]

theorem not_v_mem_versionMark (version : Nat) : 'v' ∉ versionMark version := by
  unfold versionMark
  split
  · simp
  · intro hv
    have hdigit := isDigit_of_mem_toString (List.mem_of_ne_of_mem (by decide) hv)
    simp at hdigit

theorem v_mem_marks (functions : List String) (name : String) (version : Nat) :
    'v' ∈ reservedMark name ++ functionMark functions name ++ versionMark version ↔
      functions.contains (escape name) = true := by
  have hreserved : 'v' ∉ reservedMark name := by
    unfold reservedMark
    split <;> simp
  have hversion := not_v_mem_versionMark version
  by_cases hf : functions.contains (escape name) = true
  · simp_all [functionMark]
  · simp_all [functionMark]

/-- The name of a variable tells whether a function has the variable's name. -/
theorem ofChars_ofVariable (functions : List String) {x : String} (hx : IsSourceName x) (n : Nat) :
    Kind.ofChars (ofVariable functions x n).toList =
      if functions.contains (escape x) then .besideFunction else .plain := by
  have hhead := head?_ofVariable functions hx n
  have hread : unspell (ofVariable functions x n).toList =
      (x.toList, reservedMark x ++ functionMark functions x ++ versionMark n) := by
    rw [toList_ofVariable, unspell_spelled hx.2.1 (endsName_marks functions x n)]
  have hkind : ∀ cs : List Char, cs.head? ≠ some '$' →
      Kind.ofChars cs = if 'v' ∈ (unspell cs).2 then .besideFunction else .plain := by
    intro cs hcs
    rw [Kind.ofChars.eq_5] <;> rintro rest rfl <;> exact hcs rfl
  rw [hkind _ hhead, hread]
  simp only [v_mem_marks]

theorem ofChars_spelling {p : Purpose} (hp : p.Arises) :
    Kind.ofChars p.spelling.toList = p.kind := by
  cases p with
  | plain name version => rw [spelling_plain, ofChars_ofVariable [] hp]; rfl
  | besideFunction name version =>
    rw [spelling_besideFunction, ofChars_ofVariable _ hp]
    simp [kind]
  | ofAttribute name version => simp only [spelling, toList_ofAttribute]; rfl
  | invented stem number =>
    simp only [spelling, toList_invented]
    simp only [Arises, stems, List.mem_cons, List.not_mem_nil, or_false] at hp
    rcases hp with rfl | rfl | rfl | rfl | rfl <;> rfl
  | structValues => rfl
  | exceptionAttributes => rfl

theorem spelling_injOn : Set.InjOn spelling {p | p.Arises} := by
  intro p hp q hq h
  have hkind : p.kind = q.kind := by
    rw [← ofChars_spelling hp, ← ofChars_spelling hq, h]
  cases p <;> cases q <;> cases hkind
  case plain.plain x m y n =>
    rw [spelling_plain, spelling_plain] at h
    obtain ⟨rfl, rfl⟩ := ofVariable_inj hp hq h
    rfl
  case besideFunction.besideFunction x m y n =>
    rw [spelling_besideFunction, spelling_besideFunction] at h
    obtain ⟨rfl, rfl⟩ := ofVariable_inj_across hp hq (by rintro rfl; rfl) h
    rfl
  case ofAttribute.ofAttribute x m y n =>
    obtain ⟨rfl, rfl⟩ := ofAttribute_inj hp hq h
    rfl
  case invented.invented stem m stem' n =>
    obtain ⟨rfl, rfl⟩ := invented_inj hp hq h
    rfl
  case structValues.structValues => rfl
  case exceptionAttributes.exceptionAttributes => rfl

end Purpose

/-! Names without a version. -/

theorem endsName_reservedMark (name : String) : EndsName (reservedMark name) := by
  simpa [functionMark, versionMark] using endsName_marks [] name 0

theorem escape_injOn : Set.InjOn escape {name | '$' ∉ name.toList} := by
  intro x hx y hy h
  have hlist := congrArg String.toList h
  rw [toList_escape, toList_escape] at hlist
  obtain ⟨hname, -⟩ := eq_and_eq_of_spelled hx hy (endsName_reservedMark x)
    (endsName_reservedMark y) hlist
  exact String.toList_inj.mp hname

/-- A segment of a module name: it is not empty and holds no character that a spelling changes or
adds. Words of letters, digits and underscores are segments. -/
def IsSegment (segment : String) : Prop :=
  segment ≠ "" ∧ ∀ c ∈ segment.toList, c ∉ ['$', '?', '!', '@']

instance : DecidablePred IsSegment := fun _ => inferInstanceAs (Decidable (_ ∧ _))

theorem IsSegment.dollar_notMem {segment : String} (h : IsSegment segment) :
    '$' ∉ segment.toList :=
  fun hmem => h.2 _ hmem (by decide)

theorem flatMap_escapeChar {cs : List Char} (h : ∀ c ∈ cs, c ∉ ['?', '!', '@']) :
    cs.flatMap escapeChar = cs := by
  induction cs with
  | nil => rfl
  | cons c rest ih =>
    have hplain : escapeChar c = [c] := by
      have hc := h c List.mem_cons_self
      unfold escapeChar
      split <;> simp_all
    rw [List.flatMap_cons, hplain, ih fun d hd => h d (List.mem_cons_of_mem _ hd),
      List.singleton_append]

theorem intercalate_concat_nil (x : Char) {ls : List (List Char)} (h : ls ≠ []) :
    [x].intercalate (ls ++ [[]]) = [x].intercalate ls ++ [x] := by
  induction ls with
  | nil => exact absurd rfl h
  | cons l rest ih =>
    cases rest with
    | nil => simp [List.intercalate_cons_cons]
    | cons l' rest =>
      have htail := ih (by simp)
      simp only [List.cons_append, List.intercalate_cons_cons] at htail ⊢
      simp [htail]

theorem toList_ofModule {segments : List String} (h : ∀ s ∈ segments, IsSegment s) :
    (ofModule segments).toList =
      ['$'].intercalate (segments.map String.toList) ++
        reservedMark ("$".intercalate segments) := by
  have hjoined : ("$".intercalate segments).toList =
      ['$'].intercalate (segments.map String.toList) := String.toList_intercalate
  have hplain : ∀ c ∈ ['$'].intercalate (segments.map String.toList), c ∉ ['?', '!', '@'] := by
    intro c hc
    rcases mem_intercalate hc with rfl | ⟨l, hl, hcl⟩
    · decide
    · obtain ⟨s, hs, rfl⟩ := List.mem_map.mp hl
      exact fun hmem => (h s hs).2 c hcl (List.mem_cons_of_mem _ hmem)
  rw [ofModule, toList_escape, hjoined, flatMap_escapeChar hplain]

/-- The segments of a module name stand between its `$`; the one that marks a reserved word only
adds an empty segment at the end. -/
theorem splitOn_ofModule {segments : List String} (hne : segments ≠ [])
    (h : ∀ s ∈ segments, IsSegment s) :
    ((ofModule segments).toList.splitOn '$').filter (!·.isEmpty) = segments.map String.toList := by
  have hfree : ∀ l ∈ segments.map String.toList, '$' ∉ l := by
    intro l hl
    obtain ⟨s, hs, rfl⟩ := List.mem_map.mp hl
    exact (h s hs).dollar_notMem
  have hfull : ∀ l ∈ segments.map String.toList, (!l.isEmpty) = true := by
    intro l hl
    obtain ⟨s, hs, rfl⟩ := List.mem_map.mp hl
    simpa using (h s hs).1
  have hnil : segments.map String.toList ≠ [] := by simpa using hne
  rw [toList_ofModule h, reservedMark]
  split
  · rw [← intercalate_concat_nil _ hnil, List.splitOn_intercalate _ _ (by simp)]
    · simp only [List.filter_append, List.filter_eq_self.mpr hfull]
      simp
    · intro l hl
      rcases List.mem_append.mp hl with hl | hl
      · exact hfree l hl
      · simp_all
  · rw [List.append_nil, List.splitOn_intercalate _ hfree hnil, List.filter_eq_self.mpr hfull]

theorem ofModule_injOn :
    Set.InjOn ofModule {segments | segments ≠ [] ∧ ∀ s ∈ segments, IsSegment s} := by
  rintro xs ⟨hxs, hx⟩ ys ⟨hys, hy⟩ h
  have hread : xs.map String.toList = ys.map String.toList := by
    rw [← splitOn_ofModule hxs hx, ← splitOn_ofModule hys hy, h]
  exact (List.map_inj_right fun _ _ => String.toList_inj.mp).mp hread

/-- No two purposes of names share a spelling, no two functions a target name and no two modules. -/
theorem naming_scheme_collision_free :
    Set.InjOn Purpose.spelling {p | p.Arises} ∧
      Set.InjOn escape {name | '$' ∉ name.toList} ∧
      Set.InjOn ofModule {segments | segments ≠ [] ∧ ∀ s ∈ segments, IsSegment s} :=
  ⟨Purpose.spelling_injOn, escape_injOn, ofModule_injOn⟩

end TreeLowering.Identifier

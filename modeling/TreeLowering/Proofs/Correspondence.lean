import TreeLowering.Proofs.Declarations
import TreeLowering.Proofs.EmissionTree
import TreeLowering.Proofs.Execution

/-!
When the values and scopes of forms correspond to those of their targets.

A scope of the source agrees with the cells of the target when each variable has, under the name that
the lowering reads it by, a cell with a corresponding value. Closures correspond when the one is
lowered to the other and their scopes agree. Nothing in this is lost when cells are added or when an
empty cell is filled, and the constants of a new block or function hide no variable in scope, since
their names are new.
-/
namespace TreeLowering.Evaluation

open Source Target Identifier Scoping LowerM Lowering

/-- What is initialised stays as it is. -/
def Heap.Keeps (h h' : Heap) : Prop :=
  ∀ (i : Nat) (v : TargetValue), h[i]? = some (some v) → h'[i]? = some (some v)

theorem Heap.Keeps.append (h more : Heap) : h.Keeps (h ++ more) := by
  intro i v hi
  obtain ⟨hlt, -⟩ := List.getElem?_eq_some_iff.mp hi
  rw [List.getElem?_append_left hlt, hi]

/-- Variables are bound by their own names, to versions that were given out. -/
def VersionsKnown (n : Names) : Prop :=
  ∀ x version, n.scope.get? x = some version → IsSourceName x ∧ version < n.versions.next x

/-- A value of the source and one of the target. The cells and contents that the closure of the
target has for the variables of the scope are given by functions of the variable. -/
inductive Corresponds (c : Config) (h : Heap) : Value → TargetValue → Prop
  | scalar (s : Scalar) : Corresponds c h (.scalar s) (.scalar s)
  | closure {scope : Scope} {params targets : List String} {body : List Node} {stmts : List Stmt}
      {cells : NameTable Nat} {s s₁ s₂ : State} (named : ∀ x ∈ params, IsSourceName x)
      (items : ∀ n ∈ body, IsCore n) (bound : bindVariables params c s = (.ok targets, s₁))
      (lowered : Positions.body (all body) c s₁ = (.ok stmts, s₂))
      (known : VersionsKnown (namesOf s)) (cell : String → Nat) (content : String → TargetValue)
      (found : ∀ x v, scope.get? x = some v → ∃ version, s.scope.get? x = some version ∧
        cells.get? (ofVariable s.functions x version) = some (cell x) ∧
          h[cell x]? = some (some (content x)))
      (related : ∀ x v, scope.get? x = some v → Corresponds c h v (content x)) :
      Corresponds c h (.closure scope params body) (.closure cells targets stmts)

/-- Each variable of the scope has a cell with its value, under the name that is read for it. -/
structure Agrees (c : Config) (h : Heap) (scope : Scope) (n : Names) (cells : NameTable Nat) :
    Prop where
  known : VersionsKnown n
  found : ∀ x v, scope.get? x = some v → ∃ version i w, n.scope.get? x = some version ∧
    cells.get? (ofVariable n.functions x version) = some i ∧ h[i]? = some (some w) ∧
      Corresponds c h v w

section Agreement

variable {c : Config} {h h' : Heap} {scope : Scope} {n m : Names} {cells : NameTable Nat}
  {v : Value} {w : TargetValue}

theorem Corresponds.mono (r : Corresponds c h v w) (keeps : h.Keeps h') :
    Corresponds c h' v w := by
  induction r with
  | scalar s => exact .scalar s
  | closure named items bound lowered known cell content found _ ih =>
    refine .closure named items bound lowered known cell content (fun x v hx => ?_) ih
    obtain ⟨version, hversion, hcell, hcontent⟩ := found x v hx
    exact ⟨version, hversion, hcell, keeps _ _ hcontent⟩

theorem Corresponds.isTruthy_eq (r : Corresponds c h v w) : w.isTruthy = v.isTruthy := by
  cases r <;> rfl

theorem Agrees.mono (agrees : Agrees c h scope n cells) (keeps : h.Keeps h') :
    Agrees c h' scope n cells := by
  refine ⟨agrees.known, fun x v hx => ?_⟩
  obtain ⟨version, i, w, hversion, hi, hw, hr⟩ := agrees.found x v hx
  exact ⟨version, i, w, hversion, hi, keeps _ _ hw, hr.mono keeps⟩

/-- After a part that leaves the scope of the lowering as it was. -/
theorem Agrees.later (agrees : Agrees c h scope n cells) (hscope : m.scope = n.scope)
    (le : n.Le m) : Agrees c h scope m cells := by
  refine ⟨fun x version hx => ?_, fun x v hx => ?_⟩
  · obtain ⟨hname, hlt⟩ := agrees.known x version (hscope ▸ hx)
    exact ⟨hname, Nat.lt_of_lt_of_le hlt (le.versions x)⟩
  · rw [hscope, le.functions]
    exact agrees.found x v hx

/-- A variable is bound to a value that is in the cell of its new name. -/
theorem Agrees.bind (agrees : Agrees c h scope n cells) {x : String} {i : Nat}
    (named : IsSourceName x) (declared : cells.get? (n.next x) = some i)
    (set : h[i]? = some (some w)) (r : Corresponds c h v w) :
    Agrees c h (scope.set x v) (n.bind x) cells := by
  constructor
  · intro y version hy
    simp only [Names.bind, NameTable.get?_set, NameTable.next_set] at hy ⊢
    split at hy
    next heq =>
      cases hy
      rw [heq, if_pos rfl]
      exact ⟨named, Nat.lt_succ_self _⟩
    next hne =>
      rw [if_neg hne]
      exact agrees.known y version hy
  · intro y u hy
    simp only [NameTable.get?_set] at hy
    simp only [Names.bind, NameTable.get?_set]
    split at hy
    next heq =>
      cases hy
      rw [if_pos heq, heq]
      exact ⟨_, i, w, rfl, declared, set, r⟩
    next hne =>
      rw [if_neg hne]
      exact agrees.found y u hy

theorem Agrees.closure {params targets : List String} {body : List Node} {stmts : List Stmt}
    {s s₁ s₂ : State} (agrees : Agrees c h scope (namesOf s) cells)
    (named : ∀ x ∈ params, IsSourceName x) (items : ∀ n ∈ body, IsCore n)
    (bound : bindVariables params c s = (.ok targets, s₁))
    (lowered : Positions.body (all body) c s₁ = (.ok stmts, s₂)) :
    Corresponds c h (.closure scope params body) (.closure cells targets stmts) := by
  have hfound : ∀ x, ∃ p : Nat × TargetValue, ∀ v, scope.get? x = some v →
      (∃ version, s.scope.get? x = some version ∧
        cells.get? (ofVariable s.functions x version) = some p.1 ∧ h[p.1]? = some (some p.2)) ∧
        Corresponds c h v p.2 := by
    intro x
    cases hx : scope.get? x with
    | none => exact ⟨(0, .scalar .nil), fun v hv => by cases hv⟩
    | some v =>
      obtain ⟨version, i, w, hversion, hi, hw, hr⟩ := agrees.found x v hx
      refine ⟨(i, w), fun u hu => ?_⟩
      cases hu
      exact ⟨⟨version, hversion, hi, hw⟩, hr⟩
  choose p hp using hfound
  exact .closure named items bound lowered agrees.known (fun x => (p x).1) (fun x => (p x).2)
    (fun x v hx => (hp x v hx).1) fun x v hx => (hp x v hx).2

end Agreement

/-- The names have cells of their own, which are empty. -/
structure Pending (cells : NameTable Nat) (h : Heap) (ts : List String) : Prop where
  empty : ∀ t ∈ ts, ∃ i, cells.get? t = some i ∧ h[i]? = some none
  apart : ts.Pairwise fun t u => cells.get? t ≠ cells.get? u

/-- Cells are added, and of those that were there only the cells of the names change. -/
structure Grows (cells : NameTable Nat) (ts : List String) (h h' : Heap) : Prop where
  length : h.length ≤ h'.length
  others : ∀ i < h.length, (∀ t ∈ ts, cells.get? t ≠ some i) → h'[i]? = h[i]?

section Cells

variable {cells cells' : NameTable Nat} {ts us : List String} {h h₁ h₂ : Heap}

theorem Grows.refl (cells : NameTable Nat) (ts : List String) (h : Heap) : Grows cells ts h h :=
  ⟨Nat.le_refl _, fun _ _ _ => rfl⟩

theorem Grows.trans (first : Grows cells ts h h₁) (second : Grows cells us h₁ h₂) :
    Grows cells (ts ++ us) h h₂ := by
  refine ⟨Nat.le_trans first.length second.length, fun i hi hother => ?_⟩
  rw [second.others i (Nat.lt_of_lt_of_le hi first.length)
    fun t ht => hother t (List.mem_append_right _ ht)]
  exact first.others i hi fun t ht => hother t (List.mem_append_left _ ht)

theorem Grows.keeps (grows : Grows cells ts h h₁) (pending : Pending cells h ts) : h.Keeps h₁ := by
  intro i v hi
  obtain ⟨hlt, -⟩ := List.getElem?_eq_some_iff.mp hi
  rw [grows.others i hlt, hi]
  intro t ht hcell
  obtain ⟨j, hj, hempty⟩ := pending.empty t ht
  cases hcell.symm.trans hj
  rw [hi] at hempty
  cases hempty

theorem Pending.nil (cells : NameTable Nat) (h : Heap) : Pending cells h [] :=
  ⟨by simp, .nil⟩

theorem Pending.left (pending : Pending cells h (ts ++ us)) : Pending cells h ts :=
  ⟨fun t ht => pending.empty t (List.mem_append_left _ ht),
    (List.pairwise_append.mp pending.apart).1⟩

/-- What is still to be declared after the first names have been. -/
theorem Pending.right (pending : Pending cells h (ts ++ us)) (grows : Grows cells ts h h₁) :
    Pending cells h₁ us := by
  obtain ⟨-, hapart, hcross⟩ := List.pairwise_append.mp pending.apart
  refine ⟨fun u hu => ?_, hapart⟩
  obtain ⟨i, hi, hempty⟩ := pending.empty u (List.mem_append_right _ hu)
  obtain ⟨hlt, -⟩ := List.getElem?_eq_some_iff.mp hempty
  refine ⟨i, hi, ?_⟩
  rw [grows.others i hlt fun t ht hcell => hcross t ht u hu (hcell.trans hi.symm), hempty]

/-- The empty cell of a name is filled. -/
theorem Grows.set {t : String} {i : Nat} (declared : cells.get? t = some i)
    (v : TargetValue) : Grows cells [t] h (h.set i (some v)) := by
  refine ⟨Nat.le_of_eq List.length_set.symm, fun j _ hother => ?_⟩
  have hne : i ≠ j := fun heq => hother t (List.mem_singleton_self t) (heq ▸ declared)
  rw [List.getElem?_set_ne hne]

/-- At the start of a block the constants have empty cells, behind those of other names. -/
theorem pending_place {contents : Heap} (distinct : (us ++ ts).Nodup)
    (length : contents.length = us.length) :
    Pending (place cells h.length (us ++ ts)) (h ++ (contents ++ unset ts)) ts := by
  have hcell : ∀ (i : Nat) (t : String), ts[i]? = some t →
      (place cells h.length (us ++ ts)).get? t = some (h.length + (us.length + i)) := by
    intro i t ht
    refine get?_place distinct ?_ h.length
    rw [List.getElem?_append_right (Nat.le_add_right _ _), Nat.add_sub_cancel_left, ht]
  refine ⟨fun t ht => ?_, List.pairwise_iff_getElem.mpr fun i j hi hj hij heq => ?_⟩
  · obtain ⟨i, hi, hget⟩ := List.getElem_of_mem ht
    refine ⟨_, hcell i t (List.getElem?_eq_some_iff.mpr ⟨hi, hget⟩), ?_⟩
    rw [List.getElem?_append_right (Nat.le_add_right _ _), Nat.add_sub_cancel_left, ← length,
      List.getElem?_append_right (Nat.le_add_right _ _), Nat.add_sub_cancel_left, unset,
      List.getElem?_replicate_of_lt hi]
  · rw [hcell i _ (List.getElem?_eq_getElem hi), hcell j _ (List.getElem?_eq_getElem hj)] at heq
    simp only [Option.some.injEq] at heq
    omega

/-- What runs in a new block changes no cell that was there before it. -/
theorem Grows.leave {contents : Heap} (distinct : (us ++ ts).Nodup)
    (grows : Grows (place cells h.length (us ++ ts)) ts (h ++ contents) h₁) :
    Grows cells' [] h h₁ := by
  have hlength : h.length ≤ (h ++ contents).length := by simp
  refine ⟨Nat.le_trans hlength grows.length, fun i hi _ => ?_⟩
  rw [grows.others i (Nat.lt_of_lt_of_le hi hlength), List.getElem?_append_left hi]
  intro t ht hcell
  obtain ⟨j, hj, hget⟩ := List.getElem_of_mem (List.mem_append_right us ht)
  have hplace : (place cells h.length (us ++ ts)).get? t = some (h.length + j) :=
    get?_place distinct (List.getElem?_eq_some_iff.mpr ⟨hj, hget⟩) h.length
  rw [hplace, Option.some.injEq] at hcell
  omega

end Cells

section Names

variable {c : Config} {scope : Scope} {n m : Names} {cells : NameTable Nat} {h : Heap}

/-- The names that a lowering gives out are not those of variables in scope. -/
theorem VersionsKnown.not_given (known : VersionsKnown n) {x : String} {version : Nat}
    (hx : n.scope.get? x = some version) :
    ¬ Given IsSourceName IsSourceName n m (ofVariable n.functions x version) := by
  obtain ⟨named, hlt⟩ := known x version hx
  rintro (hnumbered | hversioned)
  · generalize ht : ofVariable n.functions x version = t at hnumbered
    cases hnumbered with
    | bound named' first =>
      obtain ⟨rfl, rfl⟩ := ofVariable_inj named named' ht
      omega
    | invented => exact ofVariable_ne_invented named ht
  · generalize ht : ofVariable n.functions x version = t at hversioned
    cases hversioned
    exact ofVariable_ne_ofAttribute named ht

/-- In a new block the variables have the cells that they had. -/
theorem Agrees.enter (agrees : Agrees c h scope n cells) {ts : List String}
    (fresh : ∀ t ∈ ts, Given IsSourceName IsSourceName n m t) (contents : Heap) :
    Agrees c (h ++ contents) scope n (place cells h.length ts) := by
  have hkeeps := Heap.Keeps.append h contents
  refine ⟨agrees.known, fun x v hx => ?_⟩
  obtain ⟨version, i, w, hversion, hi, hw, hr⟩ := agrees.found x v hx
  refine ⟨version, i, w, hversion, ?_, hkeeps _ _ hw, hr.mono hkeeps⟩
  rw [get?_place_of_not_mem fun ht => agrees.known.not_given hversion (fresh _ ht), hi]

end Names

section Constants

theorem constants_append (as bs : List Stmt) :
    constants (as ++ bs) = constants as ++ constants bs := by
  induction as with
  | nil => rfl
  | cons stmt as ih => cases stmt <;> simp [constants, ih]

theorem constants_sublist (stmts : List Stmt) :
    (constants stmts).Sublist (constantNames (stmtsMarks stmts)) := by
  induction stmts with
  | nil => exact .slnil
  | cons stmt rest ih =>
    rw [stmtsMarks, constantNames_append]
    cases stmt with
    | declare t init isMutable =>
      rw [stmtMarks, constantNames_append, List.append_assoc]
      exact (ih.cons_cons t).trans (List.sublist_append_right _ _)
    | _ => exact ih.trans (List.sublist_append_right _ _)

theorem constantNames_sublist (ms : List Mark) : (constantNames ms).Sublist (declaredNames ms) := by
  unfold constantNames declaredNames
  induction leaves ms with
  | nil => exact .slnil
  | cons m ms ih => exact (List.sublist_append_left _ _).append ih

variable {n m : Names}

/-- The parameters of a lowered function and the constants of its body are new and different. -/
theorem constants_given {targets : List String} {stmts : List Stmt}
    (h : Allocates IsSourceName IsSourceName n m (targets.map .param ++ stmtsMarks stmts)) :
    (∀ t ∈ targets ++ constants stmts, Given IsSourceName IsSourceName n m t) ∧
      (targets ++ constants stmts).Nodup := by
  obtain ⟨hdeclared, hconstants, hparams, -⟩ := params_only targets
  have hgiven : ∀ t ∈ targets ++ constants stmts, Given IsSourceName IsSourceName n m t := by
    refine List.forall_mem_append.mpr ⟨fun t ht => h.params t ?_, fun t ht => h.constants t ?_⟩
    · rw [ownParams_append, hparams]
      exact List.mem_append_left _ ht
    · rw [constantNames_append]
      exact List.mem_append_right _ ((constants_sublist stmts).subset ht)
  refine ⟨hgiven, ?_⟩
  have hsublist : (targets ++ constants stmts).Sublist
      (declaredNames (targets.map .param ++ stmtsMarks stmts)) := by
    rw [declaredNames_append, hdeclared]
    exact (List.Sublist.refl _).append ((constants_sublist stmts).trans (constantNames_sublist _))
  exact (h.once.sublist hsublist).imp_of_mem fun {t u} ht _ hrepeat heq =>
    (hgiven t ht).not_isArgument (fun _ => id) (hrepeat heq)

end Constants

end TreeLowering.Evaluation

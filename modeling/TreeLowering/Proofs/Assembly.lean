import TreeLowering.Source.Pipe

/-!
The places of a source tree.

`Node.assembly` takes a node apart into the nodes that stand directly in it, all of them and in the
order in which they are written, and keeps the way to build the node from others. What happens to a
tree in all of its places, or in one of them, is then said once for all forms: `Occurs` is about the
nodes of a tree at any depth, and `replaceAt` puts another node in the place of one of them.
-/
namespace TreeLowering.Source

/-- The nodes that stand directly in a value, and the value with other nodes in their places. -/
structure Assembly (α : Type) where
  parts : List Node
  build : List Node → α

namespace Assembly

variable {α β γ δ : Type}

/-- A value without nodes. -/
def fixed (a : α) : Assembly α := ⟨[], fun _ => a⟩

def node (n : Node) : Assembly Node := ⟨[n], fun ps => ps.headD .nil⟩

def map (f : α → β) (p : Assembly α) : Assembly β := ⟨p.parts, fun ps => f (p.build ps)⟩

/-- Two values in one, the nodes of the first before those of the second. -/
def map₂ (f : α → β → γ) (p : Assembly α) (q : Assembly β) : Assembly γ where
  parts := p.parts ++ q.parts
  build ps := f (p.build (ps.take p.parts.length)) (q.build (ps.drop p.parts.length))

def map₃ (f : α → β → γ → δ) (p : Assembly α) (q : Assembly β) (r : Assembly γ) : Assembly δ :=
  map₂ (fun g c => g c) (map₂ f p q) r

def each (f : α → Assembly α) : List α → Assembly (List α)
  | [] => fixed []
  | a :: rest => map₂ List.cons (f a) (each f rest)

def option (f : α → Assembly α) : Option α → Assembly (Option α)
  | none => fixed none
  | some a => (f a).map some

def segment : Segment Node → Assembly (Segment Node)
  | .plain value => (node value).map .plain
  | .interpolated value => (node value).map .interpolated

def entry : Node × Node → Assembly (Node × Node)
  | (key, value) => map₂ Prod.mk (node key) (node value)

def field : String × Node → Assembly (String × Node)
  | (name, value) => (node value).map (Prod.mk name)

def clause : Clause Node → Assembly (Clause Node)
  | ⟨head, body⟩ => map₂ Clause.mk (each node head) (each node body)

def qualifier : Qualifier Node → Assembly (Qualifier Node)
  | .generator pattern collection => map₂ .generator (node pattern) (node collection)
  | .filter condition => (node condition).map .filter

/-- Built from its own nodes the value is itself, and built from as many others it has those, in the
same places. -/
structure Faithful (f : α → Assembly α) (a : α) : Prop where
  build_parts : (f a).build (f a).parts = a
  rebuilt : ∀ ps, ps.length = (f a).parts.length → f ((f a).build ps) = ⟨ps, (f a).build⟩

namespace Faithful

variable {f : α → Assembly α} {g : β → Assembly β} {h : γ → Assembly γ} {k : δ → Assembly δ}

theorem fixed {a : α} (hf : f a = Assembly.fixed a) : Faithful f a where
  build_parts := by rw [hf]; rfl
  rebuilt ps hlength := by
    rw [hf] at hlength ⊢
    obtain rfl := List.length_eq_zero_iff.mp hlength
    exact hf

theorem map {t : α → β} {a : α} (hg : ∀ a, g (t a) = (f a).map t) (ha : Faithful f a) :
    Faithful g (t a) where
  build_parts := by
    rw [hg]
    exact congrArg t ha.build_parts
  rebuilt ps hlength := by
    rw [hg] at hlength ⊢
    show g (t ((f a).build ps)) = _
    rw [hg, ha.rebuilt ps hlength]
    rfl

theorem map₂ {t : α → β → γ} {a : α} {b : β}
    (hh : ∀ a b, h (t a b) = Assembly.map₂ t (f a) (g b)) (ha : Faithful f a)
    (hb : Faithful g b) : Faithful h (t a b) where
  build_parts := by
    rw [hh]
    simp only [Assembly.map₂, List.take_left, List.drop_left, ha.build_parts, hb.build_parts]
  rebuilt ps hlength := by
    rw [hh] at hlength ⊢
    simp only [Assembly.map₂, List.length_append] at hlength ⊢
    have hfirst : (ps.take (f a).parts.length).length = (f a).parts.length := by
      rw [List.length_take]
      omega
    have hsecond : (ps.drop (f a).parts.length).length = (g b).parts.length := by
      rw [List.length_drop]
      omega
    rw [hh, ha.rebuilt _ hfirst, hb.rebuilt _ hsecond]
    simp only [Assembly.map₂, hfirst, List.take_append_drop]

theorem map₃ {t : α → β → γ → δ} {a : α} {b : β} {c : γ}
    (hk : ∀ a b c, k (t a b c) = Assembly.map₃ t (f a) (g b) (h c)) (ha : Faithful f a)
    (hb : Faithful g b) (hc : Faithful h c) : Faithful k (t a b c) where
  build_parts := by
    rw [hk]
    simp only [Assembly.map₃, Assembly.map₂, List.take_left, List.drop_left, ha.build_parts,
      hb.build_parts, hc.build_parts]
  rebuilt ps hlength := by
    rw [hk] at hlength ⊢
    simp only [Assembly.map₃, Assembly.map₂, List.length_append] at hlength ⊢
    generalize hfront : ps.take ((f a).parts.length + (g b).parts.length) = front
    generalize hback : ps.drop ((f a).parts.length + (g b).parts.length) = back
    have hps : front ++ back = ps := by rw [← hfront, ← hback, List.take_append_drop]
    have hfrontLength : front.length = (f a).parts.length + (g b).parts.length := by
      rw [← hfront, List.length_take]
      omega
    have hfirst : (front.take (f a).parts.length).length = (f a).parts.length := by
      rw [List.length_take]
      omega
    have hsecond : (front.drop (f a).parts.length).length = (g b).parts.length := by
      rw [List.length_drop]
      omega
    have hthird : back.length = (h c).parts.length := by
      rw [← hps, List.length_append] at hlength
      omega
    rw [hk, ha.rebuilt _ hfirst, hb.rebuilt _ hsecond, hc.rebuilt _ hthird]
    simp only [Assembly.map₃, Assembly.map₂, hfirst, hfrontLength, List.take_append_drop, hps]

theorem node (n : Node) : Faithful Assembly.node n where
  build_parts := rfl
  rebuilt ps hlength := by
    obtain ⟨m, rfl⟩ := List.length_eq_one_iff.mp hlength
    rfl

theorem each (hf : ∀ a, Faithful f a) (l : List α) : Faithful (Assembly.each f) l := by
  induction l with
  | nil => exact fixed rfl
  | cons a rest ih => exact map₂ (fun _ _ => rfl) (hf a) ih

theorem option (hf : ∀ a, Faithful f a) (o : Option α) : Faithful (Assembly.option f) o := by
  cases o with
  | none => exact fixed rfl
  | some a => exact map (fun _ => rfl) (hf a)

theorem segment (s : Segment Node) : Faithful Assembly.segment s := by
  cases s <;> exact map (fun _ => rfl) (node _)

theorem entry : ∀ e : Node × Node, Faithful Assembly.entry e
  | (key, value) => map₂ (fun _ _ => rfl) (node key) (node value)

theorem field : ∀ e : String × Node, Faithful Assembly.field e
  | (_, value) => map (fun _ => rfl) (node value)

theorem clause : ∀ c : Clause Node, Faithful Assembly.clause c
  | ⟨head, body⟩ => map₂ (fun _ _ => rfl) (each node head) (each node body)

theorem qualifier (q : Qualifier Node) : Faithful Assembly.qualifier q := by
  cases q with
  | generator pattern collection => exact map₂ (fun _ _ => rfl) (node pattern) (node collection)
  | filter condition => exact map (fun _ => rfl) (node condition)

end Faithful

section Parts

variable (f : α → Assembly α)

@[simp]
theorem parts_fixed (a : α) : (fixed a).parts = [] := rfl

@[simp]
theorem parts_node (n : Node) : (node n).parts = [n] := rfl

@[simp]
theorem parts_map (t : α → β) (p : Assembly α) : (p.map t).parts = p.parts := rfl

@[simp]
theorem parts_map₂ (t : α → β → γ) (p : Assembly α) (q : Assembly β) :
    (map₂ t p q).parts = p.parts ++ q.parts := rfl

@[simp]
theorem parts_map₃ (t : α → β → γ → δ) (p : Assembly α) (q : Assembly β) (r : Assembly γ) :
    (map₃ t p q r).parts = p.parts ++ q.parts ++ r.parts := rfl

@[simp]
theorem parts_each (l : List α) : (each f l).parts = l.flatMap fun a => (f a).parts := by
  induction l with
  | nil => rfl
  | cons a rest ih => exact congrArg ((f a).parts ++ ·) ih

@[simp]
theorem parts_option (o : Option α) : (option f o).parts = o.toList.flatMap fun a => (f a).parts := by
  cases o <;> simp [option]

/-- The predicate holds of every node of the value. -/
def All (Q : Node → Prop) (a : Assembly α) : Prop := ∀ m ∈ a.parts, Q m

variable {Q : Node → Prop}

theorem all_node {n : Node} : (node n).All Q ↔ Q n := List.forall_mem_singleton

theorem all_map₂ {t : α → β → γ} {p : Assembly α} {q : Assembly β} :
    (map₂ t p q).All Q ↔ p.All Q ∧ q.All Q := List.forall_mem_append

theorem all_map₃ {t : α → β → γ → δ} {p : Assembly α} {q : Assembly β} {r : Assembly γ} :
    (map₃ t p q r).All Q ↔ p.All Q ∧ q.All Q ∧ r.All Q :=
  all_map₂.trans ((and_congr_left' all_map₂).trans and_assoc)

variable {f} in
theorem all_each {l : List α} : (each f l).All Q ↔ ∀ a ∈ l, (f a).All Q := by
  simp only [All, parts_each, List.forall_mem_flatMap]

theorem all_nodes {ns : List Node} : (each node ns).All Q ↔ ∀ m ∈ ns, Q m :=
  all_each.trans (forall₂_congr fun _ _ => all_node)

variable {f} in
theorem all_option {o : Option α} : (option f o).All Q ↔ ∀ a ∈ o, (f a).All Q := by
  cases o <;> simp [All]

/-- No node of a value is larger than the value. -/
def Bounded [SizeOf α] : Prop := ∀ a, ∀ m ∈ (f a).parts, sizeOf m ≤ sizeOf a

variable {f} [SizeOf α]

theorem sizeOf_lt_of_mem_each (hf : Bounded f) {l : List α} {m : Node} (h : m ∈ (each f l).parts) :
    sizeOf m < sizeOf l := by
  rw [parts_each] at h
  obtain ⟨a, ha, hm⟩ := List.mem_flatMap.mp h
  have hle := hf a m hm
  have hlt := List.sizeOf_lt_of_mem ha
  omega

theorem sizeOf_lt_of_mem_option (hf : Bounded f) {o : Option α} {m : Node}
    (h : m ∈ (option f o).parts) : sizeOf m < sizeOf o := by
  cases o with
  | none => cases h
  | some a =>
    have hle := hf a m h
    simp only [Option.some.sizeOf_spec]
    omega

theorem bounded_node : Bounded node := by
  intro n m h
  obtain rfl := List.mem_singleton.mp h
  exact Nat.le_refl _

theorem bounded_nodes : Bounded (each node) := fun _ _ h =>
  Nat.le_of_lt (sizeOf_lt_of_mem_each bounded_node h)

theorem bounded_segment : Bounded segment := by
  intro s m h
  cases s <;>
  · obtain rfl := List.mem_singleton.mp h
    simp

theorem bounded_entry : Bounded entry := by
  rintro ⟨key, value⟩ m h
  have hm : m = key ∨ m = value := by simpa [entry] using h
  rcases hm with rfl | rfl <;> simp only [Prod.mk.sizeOf_spec] <;> omega

theorem bounded_field : Bounded field := by
  rintro ⟨name, value⟩ m h
  obtain rfl := List.mem_singleton.mp h
  simp

theorem bounded_clause : Bounded clause := by
  rintro ⟨head, body⟩ m h
  simp only [Clause.mk.sizeOf_spec]
  rcases List.mem_append.mp h with h | h
  · have := sizeOf_lt_of_mem_each bounded_node h
    omega
  · have := sizeOf_lt_of_mem_each bounded_node h
    omega

theorem bounded_qualifier : Bounded qualifier := by
  intro q m h
  cases q with
  | generator pattern collection =>
    have hm : m = pattern ∨ m = collection := by simpa [qualifier] using h
    rcases hm with rfl | rfl <;> simp only [Qualifier.generator.sizeOf_spec] <;> omega
  | filter condition =>
    obtain rfl := List.mem_singleton.mp h
    simp

end Parts

end Assembly

namespace Node

open Assembly (fixed node map₂ map₃ each option segment entry field clause qualifier)

/-- The node, taken apart into the nodes that stand directly in it. -/
def assembly : Node → Assembly Node
  | .list items => (each node items).map .list
  | .cons head tail => map₂ .cons (each node head) (node tail)
  | .tuple items => (each node items).map .tuple
  | .binary segments => (each segment segments).map .binary
  | .map entries => (each entry entries).map .map
  | .mapUpdate base updates => map₂ .mapUpdate (node base) (each entry updates)
  | .struct tag fields update => map₃ .struct (node tag) (each entry fields) (option node update)
  | .bind pattern value => map₂ .bind (node pattern) (node value)
  | .pin operand => (node operand).map .pin
  | .guarded exprs guard => map₂ .guarded (each node exprs) (node guard)
  | .binaryOp op left right => map₂ (.binaryOp op) (node left) (node right)
  | .unaryOp op operand => (node operand).map (.unaryOp op)
  | .pipe left right => map₂ .pipe (node left) (node right)
  | .range first last step => map₃ .range (node first) (node last) (option node step)
  | .call name args info => (each node args).map (.call name · info)
  | .dot target name args info => map₂ (.dot · name · info) (node target) (option (each node) args)
  | .apply callee args => map₂ .apply (node callee) (each node args)
  | .capture owner name arity => (option node owner).map (.capture · name arity)
  | .fn clauses => (each clause clauses).map .fn
  | .caseOf subject clauses => map₂ .caseOf (node subject) (each clause clauses)
  | .cond clauses => (each clause clauses).map .cond
  | .ifElse condition body otherwise =>
    map₃ .ifElse (node condition) (each node body) (option (each node) otherwise)
  | .unlessElse condition body otherwise =>
    map₃ .unlessElse (node condition) (each node body) (option (each node) otherwise)
  | .comprehension qualifiers body into =>
    map₃ .comprehension (each qualifier qualifiers) (each node body) (option node into)
  | .block items => (each node items).map .block
  | .define visibility head body => map₂ (.define visibility) (node head) (each node body)
  | .module name body => (each node body).map (.module name)
  | .attributeSet name value => (node value).map (.attributeSet name)
  | .defStruct fields => (each field fields).map .defStruct
  | .defException fields => (each field fields).map .defException
  | .raise exception attributes => map₂ .raise (node exception) (option node attributes)
  | leaf => fixed leaf

/-- The nodes that stand directly in the node. -/
def parts (n : Node) : List Node := n.assembly.parts

/-- The node with others in the places of its parts. -/
def withParts (n : Node) (ps : List Node) : Node := n.assembly.build ps

theorem faithful_assembly (n : Node) : Assembly.Faithful assembly n := by
  cases n with
  | list | tuple | block | module => exact .map (fun _ => rfl) (.each .node _)
  | call name args info =>
    exact .map (t := fun args => Node.call name args info) (fun _ => rfl) (.each .node args)
  | binary => exact .map (fun _ => rfl) (.each .segment _)
  | map => exact .map (fun _ => rfl) (.each .entry _)
  | fn | cond => exact .map (fun _ => rfl) (.each .clause _)
  | defStruct | defException => exact .map (fun _ => rfl) (.each .field _)
  | pin | unaryOp | attributeSet => exact .map (fun _ => rfl) (.node _)
  | capture owner name arity =>
    exact .map (t := fun owner => Node.capture owner name arity) (fun _ => rfl) (.option .node owner)
  | bind | binaryOp | pipe => exact .map₂ (fun _ _ => rfl) (.node _) (.node _)
  | cons | guarded => exact .map₂ (fun _ _ => rfl) (.each .node _) (.node _)
  | mapUpdate => exact .map₂ (fun _ _ => rfl) (.node _) (.each .entry _)
  | dot target name args info =>
    exact .map₂ (t := fun target args => Node.dot target name args info) (fun _ _ => rfl)
      (.node target) (.option (.each .node) args)
  | apply | define => exact .map₂ (fun _ _ => rfl) (.node _) (.each .node _)
  | caseOf => exact .map₂ (fun _ _ => rfl) (.node _) (.each .clause _)
  | raise => exact .map₂ (fun _ _ => rfl) (.node _) (.option .node _)
  | struct => exact .map₃ (fun _ _ _ => rfl) (.node _) (.each .entry _) (.option .node _)
  | range => exact .map₃ (fun _ _ _ => rfl) (.node _) (.node _) (.option .node _)
  | ifElse | unlessElse =>
    exact .map₃ (fun _ _ _ => rfl) (.node _) (.each .node _) (.option (.each .node) _)
  | comprehension =>
    exact .map₃ (fun _ _ _ => rfl) (.each .qualifier _) (.each .node _) (.option .node _)
  | _ => exact .fixed rfl

@[simp]
theorem withParts_parts (n : Node) : n.withParts n.parts = n := n.faithful_assembly.build_parts

theorem assembly_withParts {n : Node} {ps : List Node} (h : ps.length = n.parts.length) :
    (n.withParts ps).assembly = ⟨ps, n.withParts⟩ :=
  n.faithful_assembly.rebuilt ps h

theorem parts_withParts {n : Node} {ps : List Node} (h : ps.length = n.parts.length) :
    (n.withParts ps).parts = ps := by
  rw [parts, assembly_withParts h]

theorem withParts_withParts {n : Node} {ps : List Node} (h : ps.length = n.parts.length)
    (qs : List Node) : (n.withParts ps).withParts qs = n.withParts qs := by
  rw [withParts, assembly_withParts h]

theorem formName_withParts (n : Node) (ps : List Node) : (n.withParts ps).formName = n.formName := by
  cases n <;> rfl

theorem sizeOf_lt_of_mem_parts {m n : Node} (h : m ∈ n.parts) : sizeOf m < sizeOf n := by
  cases n <;>
    simp only [parts, assembly, Assembly.parts_fixed, Assembly.parts_node, Assembly.parts_map,
      Assembly.parts_map₂, Assembly.parts_map₃, List.mem_append, List.mem_singleton,
      List.not_mem_nil] at h
  all_goals simp
  all_goals grind [→ Assembly.sizeOf_lt_of_mem_each, → Assembly.sizeOf_lt_of_mem_option,
    Assembly.bounded_node, Assembly.bounded_nodes, Assembly.bounded_segment,
    Assembly.bounded_entry, Assembly.bounded_field, Assembly.bounded_clause,
    Assembly.bounded_qualifier]

/-- What holds of a node when it holds of its parts holds of every node. -/
theorem inductParts {P : Node → Prop} (step : ∀ n, (∀ m ∈ n.parts, P m) → P n) (n : Node) : P n :=
  step n fun m _ => inductParts step m
termination_by sizeOf n
decreasing_by exact sizeOf_lt_of_mem_parts ‹_›

/-- The node stands somewhere in the tree: it is the tree, or stands in a part of it. -/
inductive Occurs (m : Node) : Node → Prop
  | self : Occurs m m
  | inside {n p : Node} (part : p ∈ n.parts) (occurs : Occurs m p) : Occurs m n

/-- The node at a place, which is given by the number of a part, the number of a part of that one,
and so on. -/
def at? (n : Node) : List Nat → Option Node
  | [] => some n
  | i :: place => n.parts[i]?.bind fun p => p.at? place

/-- The tree with another node at a place. -/
def replaceAt (n m : Node) : List Nat → Node
  | [] => m
  | i :: place => n.withParts (n.parts.modify i fun p => p.replaceAt m place)

end Node

end TreeLowering.Source

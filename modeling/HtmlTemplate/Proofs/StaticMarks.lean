import HtmlTemplate.Proofs.Hoisting
import Mathlib.Data.List.Induction

/-!
# Which marks the search for static subtrees makes

Nodes of a tree are told apart by their paths, lists of child numbers from the root. A node is
marked as static exactly when nothing at or below it stands in the way (`Node.AllowsStatic`), and an
element is a static root exactly when it is static, its parent is not, and there is something worth
a procedure among its children (`static_marks`). One search leaves nothing for another to do.
-/

namespace HtmlTemplate.Template

/-! ### Paths -/

namespace Node

def children : Node → List Node
  | .element _ children => children
  | .text _ => []
  | .comment .. => []

/-- The node to which a path of child numbers leads. -/
def at? (n : Node) : List Nat → Option Node
  | [] => some n
  | i :: path => n.children[i]?.bind fun child => child.at? path

@[simp] theorem at?_nil (n : Node) : n.at? [] = some n := rfl

theorem at?_cons (n : Node) (i : Nat) (path : List Nat) :
    n.at? (i :: path) = n.children[i]?.bind fun child => child.at? path := rfl

theorem at?_append (n : Node) (p q : List Nat) :
    n.at? (p ++ q) = (n.at? p).bind fun m => m.at? q := by
  induction p generalizing n with
  | nil => rfl
  | cons i p ih =>
    rw [List.cons_append, at?_cons, at?_cons, Option.bind_assoc]
    exact congrArg _ (funext ih)

theorem at?_singleton (n : Node) (i : Nat) : n.at? [i] = n.children[i]? := by
  rw [at?_cons]
  simp

/-- Where there is a node, there is one at every beginning of its path. -/
theorem exists_at?_of_append {n m : Node} {p q : List Nat} (h : n.at? (p ++ q) = some m) :
    ∃ k, n.at? p = some k ∧ k.at? q = some m := by
  rw [at?_append] at h
  exact Option.bind_eq_some_iff.1 h

/-- Only an element has something below it. -/
theorem exists_element_of_at? {n m : Node} {i : Nat} {path : List Nat}
    (h : n.at? (i :: path) = some m) : ∃ e : Element, n = e.toNode := by
  cases n with
  | element head children => exact ⟨⟨head, children⟩, rfl⟩
  | text run => cases h
  | comment content span => cases h

end Node

theorem Element.toNode_injective {d e : Element} (h : d.toNode = e.toNode) : d = e := by
  cases d
  cases e
  cases h
  rfl

/-! ### What may be static -/

/-- A static key of the options or of one of their modules. -/
def Options.IsStaticKey (o : Options) (key : String) : Prop :=
  key ∈ o.staticKeys ∨ ∃ m ∈ o.modules, key ∈ m.staticKeys

theorem Options.mem_effectiveStaticKeys {o : Options} {key : String} :
    key ∈ o.effectiveStaticKeys ↔ o.IsStaticKey key := by
  rw [effectiveStaticKeys, mem_orderedSet, List.mem_append, List.mem_flatMap, IsStaticKey]

namespace Node

/-- What a node by itself has to be to be static: an element that stands for no content from
elsewhere and has static keys as features, or a text without interpolations, or a comment. -/
def OwnAllowsStatic (isKey : String → Prop) : Node → Prop
  | .element head _ =>
    head.name ≠ "slot" ∧ head.name ≠ "component" ∧ ∀ feature ∈ head.features, isKey feature
  | .text run => ∀ part ∈ run.parts, ∃ text, part = .fixed text
  | .comment .. => True

/-- Nothing at or below the node stands in the way of its being static. -/
def AllowsStatic (isKey : String → Prop) (n : Node) : Prop :=
  ∀ path m, n.at? path = some m → m.OwnAllowsStatic isKey

section

variable {isKey : String → Prop}

theorem allowsStatic_iff {n : Node} :
    n.AllowsStatic isKey ↔ n.OwnAllowsStatic isKey ∧ ∀ m ∈ n.children, m.AllowsStatic isKey := by
  constructor
  · intro h
    refine ⟨h [] n rfl, ?_⟩
    intro m hm path k hk
    obtain ⟨i, hi⟩ := List.getElem?_of_mem hm
    exact h (i :: path) k (by rw [at?_cons, hi]; exact hk)
  · rintro ⟨hown, hchildren⟩ path m hm
    cases path with
    | nil =>
      cases hm
      exact hown
    | cons i path =>
      rw [at?_cons] at hm
      obtain ⟨child, hchild, hm⟩ := Option.bind_eq_some_iff.1 hm
      exact hchildren child (List.mem_of_getElem? hchild) path m hm

/-- What allows an element to be static allows it for everything below. -/
theorem AllowsStatic.at? {n m : Node} (h : n.AllowsStatic isKey) (path : List Nat)
    (hm : n.at? path = some m) : m.AllowsStatic isKey := by
  intro q k hk
  refine h (path ++ q) k ?_
  rw [at?_append, hm]
  exact hk

end

end Node

theorem Head.allowsStatic_iff (head : Head) (keys : List String) (children : List Node) :
    head.allowsStatic keys = true ↔
      (Node.element head children).OwnAllowsStatic fun key => key ∈ keys := by
  simp [allowsStatic, isReservedName, Node.OwnAllowsStatic, and_assoc]

theorem TextRun.isStatic_iff {run : TextRun} :
    run.isStatic = true ↔ ∀ part ∈ run.parts, ∃ text, part = .fixed text := by
  rw [isStatic, List.all_eq_true]
  refine forall₂_congr fun part _ => ?_
  cases part <;> simp [Part.isFixed]

/-! ### The marks of static elements -/

namespace Node

section

variable {keys : List String}

theorem children_withStatic (n : Node) :
    (n.withStatic keys).children = n.children.map (withStatic keys) := by
  cases n with
  | element head children => rw [withStatic, withStaticAll_eq_map]; rfl
  | text run => rfl
  | comment content span => rfl

theorem at?_withStatic (n : Node) (path : List Nat) :
    (n.withStatic keys).at? path = (n.at? path).map (withStatic keys) := by
  induction path generalizing n with
  | nil => rfl
  | cons i path ih =>
    rw [at?_cons, at?_cons, children_withStatic, List.getElem?_map, Option.bind_map,
      Option.map_bind]
    exact congrArg _ (funext ih)

theorem isStatic_withStatic (n : Node) :
    (n.withStatic keys).isStatic = true ↔ n.AllowsStatic fun key => key ∈ keys := by
  induction n using Node.induction with
  | text run =>
    rw [allowsStatic_iff, withStatic, isStatic, TextRun.isStatic_iff]
    exact ⟨fun h => ⟨h, fun _ hm => absurd hm List.not_mem_nil⟩, And.left⟩
  | comment content span =>
    rw [allowsStatic_iff]
    exact ⟨fun _ => ⟨trivial, fun _ hm => absurd hm List.not_mem_nil⟩, fun _ => rfl⟩
  | element head children ih =>
    rw [allowsStatic_iff, withStatic, isStatic, withStaticAll_eq_map, List.all_map,
      Bool.and_eq_true, head.allowsStatic_iff keys children, List.all_eq_true]
    exact and_congr_right fun _ => forall₂_congr ih

end

/-! ### The marks of static roots -/

theorem isStatic_withRoots (n : Node) : n.withRoots.isStatic = n.isStatic := by
  cases n with
  | element head children =>
    rw [withRoots]
    split <;> rfl
  | text run => rfl
  | comment content span => rfl

theorem withRoots_of_ne_toNode {n : Node} (h : ∀ e : Element, n ≠ e.toNode) :
    n.withRoots = n := by
  cases n with
  | element head children => exact absurd rfl (h ⟨head, children⟩)
  | text run => rfl
  | comment content span => rfl

end Node

/-- Slight children are none, one text or one comment. -/
theorem isSlight_eq_false_iff {children : List Node} :
    isSlight children = false ↔ children ≠ [] ∧ (∀ run, children ≠ [.text run]) ∧
      ∀ content span, children ≠ [.comment content span] := by
  match children with
  | [] => simp [isSlight]
  | [.text run] => simp [isSlight]
  | [.comment content span] => simp [isSlight]
  | [.element head children] => simp [isSlight]
  | _ :: _ :: _ => simp [isSlight]

/-- No element stands among slight children. -/
theorem ne_toNode_of_isSlight {children : List Node} (h : isSlight children = true) {n : Node}
    (hn : n ∈ children) (e : Element) : n ≠ e.toNode := by
  rintro rfl
  match children, h with
  | [.text run], _ => cases List.mem_singleton.1 hn
  | [.comment content span], _ => cases List.mem_singleton.1 hn

theorem isSlight_eq_false_of_worth {children : List Node}
    (h : (∃ child : Element, child.toNode ∈ children) ∨ 2 ≤ children.length) :
    isSlight children = false := by
  rcases h with ⟨child, hchild⟩ | hlength
  · exact Bool.eq_false_iff.2 fun hslight => ne_toNode_of_isSlight hslight hchild child rfl
  · match children, hlength with
    | _ :: _ :: _, _ => simp [isSlight]

theorem isSlight_map_unmark (children : List Node) :
    isSlight (children.map Node.unmark) = isSlight children := by
  match children with
  | [] => rfl
  | [.text run] => rfl
  | [.comment content span] => rfl
  | [.element head children] => rfl
  | _ :: _ :: _ => simp [isSlight]

namespace Node

theorem children_unmark (n : Node) : n.unmark.children = n.children.map unmark := by
  cases n with
  | element head children => rw [unmark, unmarkAll_eq_map]; rfl
  | text run => rfl
  | comment content span => rfl

theorem isSlight_of_unmark {n m : Node} (h : n.unmark = m.unmark) :
    isSlight n.children = isSlight m.children := by
  rw [← isSlight_map_unmark, ← children_unmark, h, children_unmark, isSlight_map_unmark]

theorem exists_toNode_of_unmark {n m : Node} (h : n.unmark = m.unmark) {e : Element}
    (he : m = e.toNode) : ∃ d : Element, n = d.toNode := by
  subst he
  cases n with
  | element head children => exact ⟨⟨head, children⟩, rfl⟩
  | text run => cases h
  | comment content span => cases h

/-- Below what is static no root is looked for. -/
theorem children_withRoots (n : Node) :
    n.withRoots.children =
      if n.isStatic = true then n.children else n.children.map withRoots := by
  cases n with
  | element head children =>
    rw [withRoots, withRootsAll_eq_map]
    split
    · next h =>
      rw [Bool.and_eq_true] at h
      exact (if_pos h.1).symm
    · next h =>
      split
      · next hstatic =>
        have hslight : isSlight children = true := by
          simpa [show head.isStatic = true from hstatic] using h
        refine (List.map_congr_left fun m hm => ?_).trans (List.map_id _)
        exact withRoots_of_ne_toNode (ne_toNode_of_isSlight hslight hm)
      · rfl
  | text run => exact (ite_self _).symm
  | comment content span => rfl

/-- Something above the end of the path allows static content. -/
def Sheltered (isKey : String → Prop) (n : Node) (path : List Nat) : Prop :=
  ∃ p i q m, path = p ++ i :: q ∧ n.at? p = some m ∧ m.AllowsStatic isKey

theorem Sheltered.cons {isKey : String → Prop} {n child : Node} {i : Nat} {path : List Nat}
    (hchild : n.children[i]? = some child) :
    n.Sheltered isKey (i :: path) ↔ n.AllowsStatic isKey ∨ child.Sheltered isKey path := by
  constructor
  · rintro ⟨p, j, q, m, hpath, hm, hallows⟩
    cases p with
    | nil =>
      cases hm
      exact .inl hallows
    | cons k p =>
      obtain ⟨rfl, rfl⟩ := List.cons.inj hpath
      rw [at?_cons, hchild] at hm
      exact .inr ⟨p, j, q, m, rfl, hm, hallows⟩
  · rintro (hallows | ⟨p, j, q, m, rfl, hm, hallows⟩)
    · exact ⟨[], i, path, n, rfl, rfl, hallows⟩
    · refine ⟨i :: p, j, q, m, rfl, ?_, hallows⟩
      rw [at?_cons, hchild]
      exact hm

section

variable {keys : List String}

/-- The search for roots leaves everything below a static element alone, and goes on elsewhere. -/
theorem at?_withRoots (keys : List String) (n : Node) (path : List Nat) :
    (n.Sheltered (· ∈ keys) path →
      (n.withStatic keys).withRoots.at? path = (n.at? path).map (withStatic keys)) ∧
    (¬ n.Sheltered (· ∈ keys) path →
      (n.withStatic keys).withRoots.at? path =
        (n.at? path).map fun m => (m.withStatic keys).withRoots) := by
  induction path generalizing n with
  | nil =>
    refine ⟨?_, fun _ => rfl⟩
    rintro ⟨p, i, q, m, hpath, -⟩
    simp at hpath
  | cons i path ih =>
    rw [at?_cons, at?_cons, children_withRoots, children_withStatic, Option.map_bind,
      Option.map_bind]
    cases hchild : n.children[i]? with
    | none => split <;> simp [hchild]
    | some child =>
      rw [Sheltered.cons hchild]
      split
      · -- the search stops here, or there are no elements among the children
        next hstatic =>
        have hallows := (isStatic_withStatic n).1 hstatic
        refine ⟨fun _ => ?_, fun h => absurd (.inl hallows) h⟩
        rw [List.getElem?_map, hchild]
        exact at?_withStatic child path
      · next hstatic =>
        have hallows := mt (isStatic_withStatic n).2 hstatic
        rw [List.getElem?_map, List.getElem?_map, hchild, or_iff_right hallows]
        exact ih child

/-- An element at the path is marked as static. -/
def StaticAt (n : Node) (path : List Nat) : Prop :=
  ∃ e : Element, n.at? path = some e.toNode ∧ e.head.isStatic = true

/-- An element at the path is marked as a static root. -/
def StaticRootAt (n : Node) (path : List Nat) : Prop :=
  ∃ e : Element, n.at? path = some e.toNode ∧ e.head.isStaticRoot = true

/-- What the search leaves at a path. -/
theorem exists_at?_withRoots (keys : List String) {n m : Node} {path : List Nat}
    (hm : n.at? path = some m) :
    ∃ k, (n.withStatic keys).withRoots.at? path = some k ∧ k.unmark = m.unmark ∧
      (k.isStatic = true ↔ m.AllowsStatic (· ∈ keys)) := by
  obtain ⟨hsheltered, hopen⟩ := at?_withRoots keys n path
  by_cases h : n.Sheltered (· ∈ keys) path
  · exact ⟨m.withStatic keys, by rw [hsheltered h, hm]; rfl, unmark_withStatic keys m,
      isStatic_withStatic m⟩
  · refine ⟨(m.withStatic keys).withRoots, by rw [hopen h, hm]; rfl, ?_, ?_⟩
    · rw [unmark_withRoots, unmark_withStatic]
    · rw [isStatic_withRoots]
      exact isStatic_withStatic m

theorem exists_at?_of_withRoots {n k : Node} {path : List Nat}
    (hk : (n.withStatic keys).withRoots.at? path = some k) :
    ∃ m, n.at? path = some m ∧ k.unmark = m.unmark ∧
      (k.isStatic = true ↔ m.AllowsStatic (· ∈ keys)) := by
  cases hm : n.at? path with
  | some m =>
    obtain ⟨l, hl, hmarks⟩ := exists_at?_withRoots keys hm
    rw [hk] at hl
    cases hl
    exact ⟨m, rfl, hmarks⟩
  | none =>
    obtain ⟨hsheltered, hopen⟩ := at?_withRoots keys n path
    rw [hm] at hsheltered hopen
    by_cases h : n.Sheltered (· ∈ keys) path
    · cases hk.symm.trans (hsheltered h)
    · cases hk.symm.trans (hopen h)

/-- The static elements after the search. -/
theorem staticAt_withRoots {n : Node} {path : List Nat} :
    (n.withStatic keys).withRoots.StaticAt path ↔
      ∃ e : Element, n.at? path = some e.toNode ∧ e.toNode.AllowsStatic (· ∈ keys) := by
  constructor
  · rintro ⟨d, hd, hstatic⟩
    obtain ⟨m, hm, hunmark, hiff⟩ := exists_at?_of_withRoots hd
    obtain ⟨e, rfl⟩ := exists_toNode_of_unmark hunmark.symm rfl
    exact ⟨e, hm, hiff.1 hstatic⟩
  · rintro ⟨e, he, hallows⟩
    obtain ⟨k, hk, hunmark, hiff⟩ := exists_at?_withRoots keys he
    obtain ⟨d, rfl⟩ := exists_toNode_of_unmark hunmark rfl
    exact ⟨d, hk, hiff.2 hallows⟩

/-- Every element below a static one is static. -/
theorem StaticAt.below {n : Node} {p q : List Nat} {e : Element}
    (h : (n.withStatic keys).withRoots.StaticAt p)
    (he : (n.withStatic keys).withRoots.at? (p ++ q) = some e.toNode) :
    (n.withStatic keys).withRoots.StaticAt (p ++ q) := by
  obtain ⟨d, hd, hallows⟩ := staticAt_withRoots.1 h
  obtain ⟨m, hm, hunmark, -⟩ := exists_at?_of_withRoots he
  obtain ⟨f, rfl⟩ := exists_toNode_of_unmark hunmark.symm rfl
  refine staticAt_withRoots.2 ⟨f, hm, hallows.at? q ?_⟩
  rw [at?_append, hd] at hm
  exact hm

/-! ### Static roots among their ancestors -/

theorem exists_parent_of_at? {n m : Node} {path : List Nat} (hpath : path ≠ [])
    (hm : n.at? path = some m) : ∃ e : Element, n.at? path.dropLast = some e.toNode ∧
      m ∈ e.children := by
  rw [← List.dropLast_append_getLast hpath] at hm
  obtain ⟨k, hk, hlast⟩ := exists_at?_of_append hm
  obtain ⟨e, rfl⟩ := exists_element_of_at? hlast
  rw [at?_singleton] at hlast
  exact ⟨e, hk, List.mem_of_getElem? hlast⟩

theorem mem_elements_of_at? {n : Node} {path : List Nat} {e : Element}
    (h : n.at? path = some e.toNode) : e ∈ n.elements := by
  induction path generalizing n with
  | nil =>
    cases h
    exact List.mem_cons_self
  | cons i path ih =>
    obtain ⟨d, rfl⟩ := exists_element_of_at? h
    rw [at?_cons] at h
    obtain ⟨child, hchild, h⟩ := Option.bind_eq_some_iff.1 h
    exact mem_elements_children (List.mem_of_getElem? hchild) (ih h)

/-- What is sheltered has a static parent. -/
theorem sheltered_iff {n m : Node} {path : List Nat} (hm : n.at? path = some m) :
    n.Sheltered (· ∈ keys) path ↔
      path ≠ [] ∧ (n.withStatic keys).withRoots.StaticAt path.dropLast := by
  constructor
  · rintro ⟨p, i, q, k, rfl, hk, hallows⟩
    have hne : p ++ i :: q ≠ [] := by simp
    obtain ⟨e, he, -⟩ := exists_parent_of_at? hne hm
    refine ⟨hne, staticAt_withRoots.2 ⟨e, he, hallows.at? (i :: q).dropLast ?_⟩⟩
    rw [List.dropLast_append_of_ne_nil (by simp), at?_append, hk] at he
    exact he
  · rintro ⟨hne, hparent⟩
    obtain ⟨e, he, hallows⟩ := staticAt_withRoots.1 hparent
    exact ⟨path.dropLast, path.getLast hne, [], e.toNode,
      (List.dropLast_append_getLast hne).symm, he, hallows⟩

/-- The mark that the search for roots makes on an element that it reaches. -/
theorem isStaticRoot_of_withRoots {e : Element} {m : Node} (h : e.toNode = m.withRoots) :
    e.head.isStaticRoot = true ↔ e.head.isStatic = true ∧ isSlight e.children = false := by
  obtain ⟨d, rfl⟩ := exists_toNode_of_unmark (m.unmark_withRoots.symm.trans (congrArg _ h.symm)) rfl
  have hslight : isSlight e.children = isSlight d.children :=
    isSlight_of_unmark ((congrArg unmark h).trans d.toNode.unmark_withRoots)
  have hstatic : e.head.isStatic = d.head.isStatic :=
    (congrArg isStatic h).trans d.toNode.isStatic_withRoots
  have hroot : e.head.isStaticRoot = (d.head.isStatic && !isSlight d.children) := by
    rw [Element.toNode, Element.toNode, withRoots] at h
    split at h
    · next hroot =>
      rw [hroot, (Node.element.inj h).1]
    · next hroot =>
      rw [Bool.eq_false_iff.2 hroot, (Node.element.inj h).1]
  rw [hroot, hstatic, hslight, Bool.and_eq_true, Bool.not_eq_true']

/-- The static roots after the search. -/
theorem staticRootAt_withRoots {n : Node} (h : Rootless n.elements) {path : List Nat} :
    (n.withStatic keys).withRoots.StaticRootAt path ↔
      (n.withStatic keys).withRoots.StaticAt path ∧
      (path = [] ∨ ¬ (n.withStatic keys).withRoots.StaticAt path.dropLast) ∧
      ∃ e : Element, (n.withStatic keys).withRoots.at? path = some e.toNode ∧
        isSlight e.children = false := by
  by_cases hfound : ∃ m, n.at? path = some m
  · obtain ⟨m, hm⟩ := hfound
    obtain ⟨hsheltered, hopen⟩ := at?_withRoots keys n path
    have hplace : (path = [] ∨ ¬ (n.withStatic keys).withRoots.StaticAt path.dropLast) ↔
        ¬ n.Sheltered (· ∈ keys) path := by
      rw [sheltered_iff hm, not_and_or, not_not]
    rw [hplace]
    by_cases hplace : n.Sheltered (· ∈ keys) path
    · refine iff_of_false ?_ fun hroot => hroot.2.1 hplace
      rintro ⟨e, he, hroot⟩
      rw [hsheltered hplace, ← at?_withStatic] at he
      rw [rootless_withStatic keys h e (mem_elements_of_at? he)] at hroot
      cases hroot
    · have hmark : ∀ e : Element, (n.withStatic keys).withRoots.at? path = some e.toNode →
          (e.head.isStaticRoot = true ↔ e.head.isStatic = true ∧ isSlight e.children = false) := by
        intro e he
        rw [hopen hplace, hm] at he
        exact isStaticRoot_of_withRoots (Option.some.inj he).symm
      constructor
      · rintro ⟨e, he, hroot⟩
        obtain ⟨hstatic, hslight⟩ := (hmark e he).1 hroot
        exact ⟨⟨e, he, hstatic⟩, hplace, e, he, hslight⟩
      · rintro ⟨⟨d, hd, hstatic⟩, -, e, he, hslight⟩
        cases Element.toNode_injective (Option.some.inj (hd.symm.trans he))
        exact ⟨d, hd, (hmark d hd).2 ⟨hstatic, hslight⟩⟩
  · have hnone : ∀ e : Element, (n.withStatic keys).withRoots.at? path ≠ some e.toNode := by
      intro e he
      obtain ⟨m, hm, -⟩ := exists_at?_of_withRoots he
      exact hfound ⟨m, hm⟩
    exact iff_of_false (fun ⟨e, he, _⟩ => hnone e he) fun ⟨⟨e, he, _⟩, _⟩ => hnone e he

/-- No static root lies under another. -/
theorem not_staticRootAt_below {n : Node} (h : Rootless n.elements) {p q : List Nat} {i : Nat}
    (hp : (n.withStatic keys).withRoots.StaticRootAt p) :
    ¬ (n.withStatic keys).withRoots.StaticRootAt (p ++ i :: q) := by
  intro hbelow
  obtain ⟨⟨e, he, -⟩, hparent, -⟩ := (staticRootAt_withRoots h).1 hbelow
  have hne : p ++ i :: q ≠ [] := by simp
  obtain ⟨d, hd, -⟩ := exists_parent_of_at? hne he
  refine hparent.resolve_left hne ?_
  rw [List.dropLast_append_of_ne_nil (by simp)] at hd ⊢
  exact ((staticRootAt_withRoots h).1 hp).1.below hd

/-- An element worth a procedure is a root or lies under one, if it is static. -/
theorem exists_root_above {n : Node} (h : Rootless n.elements) (path : List Nat) :
    ∀ e : Element, (n.withStatic keys).withRoots.at? path = some e.toNode →
      e.head.isStatic = true → isSlight e.children = false →
      ∃ q, q <+: path ∧ (n.withStatic keys).withRoots.StaticRootAt q := by
  -- from an element to its parent: a static parent has the element among its children, so it is
  -- worth a procedure as well
  induction path using List.reverseRecOn with
  | nil =>
    intro e he hstatic hslight
    exact ⟨[], List.prefix_rfl,
      (staticRootAt_withRoots h).2 ⟨⟨e, he, hstatic⟩, .inl rfl, e, he, hslight⟩⟩
  | append_singleton path i ih =>
    intro e he hstatic hslight
    by_cases hparent : (n.withStatic keys).withRoots.StaticAt path
    · obtain ⟨d, hd, hchild⟩ := exists_parent_of_at? (by simp) he
      rw [List.dropLast_concat] at hd
      have hworth : isSlight d.children = false := isSlight_eq_false_of_worth (.inl ⟨e, hchild⟩)
      obtain ⟨f, hf, hdstatic⟩ := hparent
      cases Element.toNode_injective (Option.some.inj (hf.symm.trans hd))
      obtain ⟨q, hq, hroot⟩ := ih d hd hdstatic hworth
      exact ⟨q, hq.trans (List.prefix_append _ _), hroot⟩
    · refine ⟨path ++ [i], List.prefix_rfl, (staticRootAt_withRoots h).2 ?_⟩
      refine ⟨⟨e, he, hstatic⟩, .inr ?_, e, he, hslight⟩
      rwa [List.dropLast_concat]

/-! ### A second search -/

theorem withStatic_withStatic (n : Node) :
    (n.withStatic keys).withStatic keys = n.withStatic keys := by
  induction n using Node.induction with
  | text run => rfl
  | comment content span => rfl
  | element head children ih =>
    have hchildren : (children.map (withStatic keys)).map (withStatic keys) =
        children.map (withStatic keys) := by
      rw [List.map_map]
      exact List.map_congr_left ih
    rw [withStatic, withStaticAll_eq_map, withStatic, withStaticAll_eq_map, hchildren]
    rfl

theorem all_isStatic_withRoots (children : List Node) :
    (children.map withRoots).all isStatic = children.all isStatic := by
  rw [List.all_map]
  exact congrArg (List.all children) (funext isStatic_withRoots)

theorem withStatic_withRoots {n : Node} (h : n.withStatic keys = n) :
    n.withRoots.withStatic keys = n.withRoots := by
  induction n using Node.induction with
  | text run => rfl
  | comment content span => rfl
  | element head children ih =>
    rw [withStatic, withStaticAll_eq_map] at h
    obtain ⟨hhead, hchildren⟩ := Node.element.inj h
    rw [hchildren] at hhead
    have hstatic : (head.allowsStatic keys && children.all isStatic) = head.isStatic :=
      congrArg Head.isStatic hhead
    rw [withRoots, withRootsAll_eq_map]
    split
    · rw [withStatic, withStaticAll_eq_map, hchildren]
      exact congrArg (fun mark => Node.element { head with isStatic := mark, isStaticRoot := true }
        children) hstatic
    · have hmapped : (children.map withRoots).map (withStatic keys) = children.map withRoots := by
        rw [List.map_map]
        refine List.map_congr_left fun m hm => ih m hm ?_
        exact List.map_inj_left.1 (hchildren.trans (List.map_id _).symm) m hm
      rw [withStatic, withStaticAll_eq_map, hmapped, all_isStatic_withRoots]
      exact congrArg (fun mark => Node.element { head with isStatic := mark, isStaticRoot := false }
        (children.map withRoots)) hstatic

theorem withRoots_withRoots (n : Node) : n.withRoots.withRoots = n.withRoots := by
  induction n using Node.induction with
  | text run => rfl
  | comment content span => rfl
  | element head children ih =>
    rw [withRoots, withRootsAll_eq_map]
    split
    · next hroot =>
      rw [withRoots, if_pos hroot]
    · next hroot =>
      have hslight : isSlight (children.map withRoots) = isSlight children := by
        have h := isSlight_of_unmark (unmark_withRoots (.element head children))
        rw [withRoots, if_neg hroot, withRootsAll_eq_map] at h
        exact h
      rw [withRoots, withRootsAll_eq_map, hslight, if_neg hroot, List.map_map]
      exact congrArg (Node.element _) (List.map_congr_left ih)

end

end Node

/-- A second search changes nothing. -/
theorem Element.optimize_optimize (keys : List String) (e : Element) :
    (e.optimize keys).optimize keys = e.optimize keys := by
  refine toNode_injective ?_
  rw [toNode_optimize, toNode_optimize, Node.withStatic_withRoots (Node.withStatic_withStatic _),
    Node.withRoots_withRoots]

/-- The marks of a tree in which nothing was a static root. After the search the tree is the same
but for its marks, its static elements and its static roots are exactly those that their subtrees
and their parents allow, and another search changes nothing. -/
theorem static_marks (o : Options) {root : Element} (h : Rootless root.toNode.elements) :
    let keys := o.effectiveStaticKeys
    let marked := (root.optimize keys).toNode
    marked.unmark = root.toNode.unmark ∧
      (∀ path, marked.StaticAt path ↔
        ∃ e : Element, root.toNode.at? path = some e.toNode ∧
          e.toNode.AllowsStatic o.IsStaticKey) ∧
      (∀ path, marked.StaticRootAt path ↔
        marked.StaticAt path ∧ (path = [] ∨ ¬ marked.StaticAt path.dropLast) ∧
          ∃ e : Element, marked.at? path = some e.toNode ∧ e.children ≠ [] ∧
            (∀ run, e.children ≠ [.text run]) ∧
            ∀ content span, e.children ≠ [.comment content span]) ∧
      (∀ path i below, marked.StaticRootAt path → ¬ marked.StaticRootAt (path ++ i :: below)) ∧
      (∀ path (e : Element), marked.at? path = some e.toNode → e.head.isStatic = true →
        (∃ child : Element, child.toNode ∈ e.children) ∨ 2 ≤ e.children.length →
        ∃ above, above <+: path ∧ marked.StaticRootAt above) ∧
      (root.optimize keys).optimize keys = root.optimize keys := by
  intro keys marked
  have hmarked : marked = (root.toNode.withStatic keys).withRoots := root.toNode_optimize keys
  have hkeys : (· ∈ keys) = o.IsStaticKey :=
    funext fun _ => propext Options.mem_effectiveStaticKeys
  rw [hmarked]
  refine ⟨?_, fun path => ?_, fun path => ?_, fun path i below => ?_,
    fun path e he hstatic hworth => ?_, root.optimize_optimize keys⟩
  · rw [Node.unmark_withRoots, Node.unmark_withStatic]
  · rw [← hkeys]
    exact Node.staticAt_withRoots
  · simp only [← isSlight_eq_false_iff]
    exact Node.staticRootAt_withRoots h
  · exact Node.not_staticRootAt_below h
  · exact Node.exists_root_above h path e he hstatic (isSlight_eq_false_of_worth hworth)

/-- An element with a text and an element, beside a text that depends on data. -/
def sampleMarks : Element where
  head := .ofTag "div" [] false default
  children :=
    [.element (.ofTag "p" [] false default)
      [.text ⟨"a", [.fixed "a"], none⟩, .element (.ofTag "b" [] false default) []],
     .text ⟨"\x7b\x7b x \x7d\x7d", [.expression "x"], none⟩]

/-- Its first child is the one static root. -/
theorem static_marks_sample :
    let marked := (sampleMarks.optimize Options.web.effectiveStaticKeys).toNode
    Rootless sampleMarks.toNode.elements ∧ marked.StaticRootAt [0] ∧ ¬ marked.StaticAt [] ∧
      marked.StaticAt [0, 1] ∧ ¬ marked.StaticRootAt [0, 1] := by
  intro marked
  have hrootless : Rootless sampleMarks.toNode.elements := by
    unfold Rootless
    decide
  obtain ⟨-, -, hroots, hbelow, -, -⟩ := static_marks Options.web hrootless
  have hfirst : marked.StaticRootAt [0] := ⟨⟨_, _⟩, rfl, rfl⟩
  have hparent := ((hroots [0]).1 hfirst).2.1
  exact ⟨hrootless, hfirst, hparent.resolve_left (by simp), ⟨⟨_, _⟩, rfl, rfl⟩,
    hbelow [0] 1 [] hfirst⟩

end HtmlTemplate.Template

import EmailMarkup.Include.Expand
/-!
# The includes of a template

`includesAll` lists the includes that an expansion has to put in their places, in the order in which
it meets them. What stands below an include goes away with it and is not listed, so a template has
no include left exactly when the list is empty (`includesAll_eq_nil_iff`).
-/
namespace EmailMarkup.Include

mutual

/-- The attributes of the includes at or below a node, except those below another include. -/
def includesIn : Node → List Attributes
  | .element tag attributes children => if tag = includeTag then [attributes] else includesAll children
  | _ => []

/-- The attributes of the includes of several nodes, in turn. -/
def includesAll : List Node → List Attributes
  | [] => []
  | n :: rest => includesIn n ++ includesAll rest

end

/-- The nodes that included markup brings to be expanded. -/
def Markup.nodes : Markup → List Node
  | .document t => t.children
  | .fragment t => (t.body?.map Node.children).getD []
  | .raw _ => []

theorem includesAll_append (nodes more : List Node) :
    includesAll (nodes ++ more) = includesAll nodes ++ includesAll more := by
  induction nodes with
  | nil => rfl
  | cons n rest ih => simp [includesAll, ih]

theorem includesAll_singleton (n : Node) : includesAll [n] = includesIn n := by simp [includesAll]

theorem includesIn_block {tag : String} (h : tag ≠ includeTag) (a : Attributes) (content : String) :
    includesIn (.block tag a content) = [] := by
  simp [Node.block, includesIn, includesAll, h]

theorem includesAll_eq_nil {nodes : List Node} : includesAll nodes = [] ↔ ∀ n ∈ nodes, includesIn n = [] := by
  induction nodes with
  | nil => simp [includesAll]
  | cons n rest ih => simp [includesAll, ih]

/-- Below a node without includes there are none. -/
theorem includesAll_children {n : Node} (h : includesIn n = []) : includesAll n.children = [] := by
  cases n with
  | element tag a children =>
    rw [includesIn] at h
    split at h
    · cases h
    · exact h
  | _ => rfl

/-- The section that goes in the place of an include is a child of the root. -/
theorem mem_of_section? {parent : String} {t : Template} {n : Node} (h : section? parent t = some n) : n ∈ t.children := by
  unfold section? Template.head? Template.body? at h
  split at h
  · cases hhead : t.root.child? Template.headTag with
    | none =>
      rw [hhead] at h
      exact List.mem_of_find?_eq_some h
    | some head =>
      rw [hhead] at h
      exact List.mem_of_find?_eq_some (hhead.trans h)
  · exact List.mem_of_find?_eq_some h

mutual

theorem includesIn_eq_nil_iff : ∀ n : Node, includesIn n = [] ↔ ∀ d ∈ n.preorder, d.tag? ≠ some includeTag
  | .element tag a children => by
    rw [includesIn, Node.preorder, List.forall_mem_cons]
    split
    · simp [Node.tag?, *]
    · simp [Node.tag?, *, includesAll_eq_nil_iff children]
  | .text _ | .cdata _ | .comment _ => by simp [includesIn, Node.preorder, Node.tag?]

/-- No include is left exactly when no node of the trees is one. -/
theorem includesAll_eq_nil_iff :
    ∀ nodes : List Node, includesAll nodes = [] ↔ ∀ d ∈ Node.preorderAll nodes, d.tag? ≠ some includeTag
  | [] => by simp [includesAll, Node.preorderAll]
  | n :: rest => by
    simp only [includesAll, List.append_eq_nil_iff, includesIn_eq_nil_iff n, includesAll_eq_nil_iff rest,
      Node.preorderAll, List.forall_mem_append]

end

end EmailMarkup.Include

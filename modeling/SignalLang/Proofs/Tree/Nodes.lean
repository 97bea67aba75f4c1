import SignalLang.Tree.Outline

/-!
# Trees of spans

A tree seen as nodes: the span of each part and the nodes it is made of, in the order of the text. The
header of a macro definition is a node that holds the name and the signature; the name of a property is a
node behind its base. No span is left out: those that an outline lists are all spans of nodes (`File.shown`).
-/

namespace SignalLang.Tree

/-- A part of a tree: its span and what it is made of. -/
inductive Node where
  | mk (span : Span) (parts : List Node)

namespace Node

/-- The text a node covers. -/
def span : Node → Span
  | mk span _ => span

/-- What a node is made of. -/
def parts : Node → List Node
  | mk _ parts => parts

/-- A node is the other one or stands somewhere in it. -/
inductive IsIn : Node → Node → Prop
  | self (n : Node) : IsIn n n
  | part {n p : Node} {span : Span} {parts : List Node} : p ∈ parts → IsIn n p → IsIn n (mk span parts)

theorem IsIn.of_mem_parts {n p : Node} (mem : p ∈ n.parts) : IsIn p n := by
  cases n
  exact .part mem (.self p)

/-- Nodes follow one another: none starts before one to the left of it ends. -/
def InOrder (ns : List Node) : Prop := ns.Pairwise fun a b => a.span.stop.offset ≤ b.span.start.offset

/-- A node starts before it ends, holds its parts, and these follow one another. -/
structure Encloses (n : Node) : Prop where
  proper : n.span.start.offset ≤ n.span.stop.offset
  starts : ∀ p ∈ n.parts, n.span.start.offset ≤ p.span.start.offset
  stops : ∀ p ∈ n.parts, p.span.stop.offset ≤ n.span.stop.offset
  inOrder : InOrder n.parts

/-- Every node in a node encloses its parts. -/
def Nests (n : Node) : Prop := ∀ m, IsIn m n → m.Encloses

theorem Nests.encloses {n : Node} (h : n.Nests) : n.Encloses := h n (.self n)

theorem Nests.mk {s : Span} {ns : List Node} (here : (Node.mk s ns).Encloses) (each : ∀ n ∈ ns, n.Nests) :
    (Node.mk s ns).Nests := by
  intro m inside
  cases inside with
  | self => exact here
  | part mem inside => exact each _ mem m inside

theorem IsIn.trans {k m n : Node} (h : IsIn k m) (h' : IsIn m n) : IsIn k n := by
  induction h' with
  | self => exact h
  | part mem _ ih => exact .part mem ih

theorem Nests.of_isIn {m n : Node} (inside : IsIn m n) (h : n.Nests) : m.Nests :=
  fun k isIn => h k (isIn.trans inside)

/-- What stands somewhere in a node stands between its start and its end. -/
theorem Nests.bounds {m n : Node} (inside : IsIn m n) (h : n.Nests) :
    n.span.start.offset ≤ m.span.start.offset ∧ m.span.stop.offset ≤ n.span.stop.offset := by
  induction inside with
  | self => exact ⟨Int.le_refl _, Int.le_refl _⟩
  | part mem inside ih =>
    obtain ⟨low, high⟩ := ih (h.of_isIn (.part mem (.self _)))
    exact ⟨Int.le_trans (h.encloses.starts _ mem) low, Int.le_trans high (h.encloses.stops _ mem)⟩

end Node

/-- A name as a node. -/
def Ident.node (id : Ident) : Node := .mk id.span []

mutual

/-- An expression as a node. -/
def Expr.node : Expr → Node
  | .name id => id.node
  | .int _ span | .float _ span | .openBound span => .mk span []
  | .array items span => .mk span (exprNodes items)
  | .arrayType dims base span => .mk span (exprNodes dims ++ [base.node])
  | .upperBound upper span => .mk span [upper.node]
  | .closedBound lower upper span => .mk span [lower.node, upper.node]
  | .index base index _ span => .mk span [base.node, index.node]
  | .property base _ nameSpan span => .mk span [base.node, .mk nameSpan []]
  | .unary _ operand span => .mk span [operand.node]
  | .binary _ left right span => .mk span [left.node, right.node]
  | .call callee inputs _ outputs span => .mk span (callee.node :: (exprNodes inputs ++ outputNodes outputs))
  | .decl type name span => .mk span [type.node, name.node]

/-- Expressions as nodes. -/
def exprNodes : List Expr → List Node
  | [] => []
  | e :: es => e.node :: exprNodes es

/-- An output as a node. -/
def Output.node : Output → Node
  | .inline span => .mk span []
  | .target target span => .mk span [target.node]

/-- Outputs as nodes. -/
def outputNodes : List Output → List Node
  | [] => []
  | o :: os => o.node :: outputNodes os

end

mutual

/-- A statement as a node. -/
def Stmt.node : Stmt → Node
  | .io _ type names span => .mk span (type.node :: names.map Ident.node)
  | .decl type name declSpan span => .mk span [.mk declSpan [type.node, name.node]]
  | .assign target value span => .mk span [target.node, value.node]
  | .macroDef name inputs outputs body header span =>
    .mk span [.mk header (name.node :: (inputs.map Ident.node ++ outputs.map Ident.node)), body.node]
  | .call call span => .mk span [call.node]
  | .expr value span => .mk span [value.node]
  | .branch clauses otherwise span => .mk span (clauseNodes clauses ++ otherwiseNodes otherwise)
  | .loop counter start stop _ body span => .mk span [counter.node, start.node, stop.node, body.node]
  | .static exports body span => .mk span (exports.map Ident.node ++ [body.node])
  | .assert condition span => .mk span [condition.node]
  | .ret span | .includeFile _ span => .mk span []
  | .block b => b.node

/-- A block as a node. -/
def Block.node : Block → Node
  | .mk statements span => .mk span (stmtNodes statements)

/-- Statements as nodes. -/
def stmtNodes : List Stmt → List Node
  | [] => []
  | s :: ss => s.node :: stmtNodes ss

/-- The conditions and the bodies of clauses. -/
def clauseNodes : List Clause → List Node
  | [] => []
  | .mk condition body :: rest => condition.node :: body.node :: clauseNodes rest

/-- The body without a condition. -/
def otherwiseNodes : Option Block → List Node
  | none => []
  | some body => [body.node]

end

/-- A file as a node. -/
def File.node (f : File) : Node := .mk f.span (stmtNodes f.statements)

theorem Expr.span_node (e : Expr) : e.node.span = e.span := by
  cases e <;> rw [Expr.node] <;> rfl

theorem stmtNodes_append (ss ts : List Stmt) : stmtNodes (ss ++ ts) = stmtNodes ss ++ stmtNodes ts := by
  induction ss with
  | nil => rfl
  | cons s ss ih => rw [List.cons_append, stmtNodes, stmtNodes, ih, List.cons_append]

/-! ## Outlines -/

/-- The spans of an outline are those of nodes in a list of nodes. -/
def Shown (entries : List Entry) (ns : List Node) : Prop :=
  ∀ e ∈ entries, ∀ s ∈ e.spans, ∃ n ∈ ns, ∃ m, Node.IsIn m n ∧ m.span = s

namespace Shown

variable {es fs : List Entry} {ns ms : List Node} {s : Span} {part : Part}

theorem nil : Shown [] ns := fun _ mem => nomatch mem

theorem append (first : Shown es ns) (rest : Shown fs ms) : Shown (es ++ fs) (ns ++ ms) := by
  intro e mem s inside
  rcases List.mem_append.1 mem with mem | mem
  · obtain ⟨n, mem, found⟩ := first e mem s inside
    exact ⟨n, List.mem_append_left _ mem, found⟩
  · obtain ⟨n, mem, found⟩ := rest e mem s inside
    exact ⟨n, List.mem_append_right _ mem, found⟩

/-- What is shown of the parts of a node is shown of the node. -/
theorem inside (h : Shown es ns) : Shown es [.mk s ns] := by
  intro e mem t isSpan
  obtain ⟨n, mem, m, isIn, same⟩ := h e mem t isSpan
  exact ⟨_, List.mem_singleton_self _, m, .part mem isIn, same⟩

/-- A node with the spans that its entry has beside its own. -/
theorem named {spans : List Span} (own : ∀ t ∈ spans, ∃ n ∈ ns, n.span = t) (h : Shown es ns) :
    Shown (⟨part, spans ++ [s]⟩ :: es) [.mk s ns] := by
  refine List.forall_mem_cons.2 ⟨fun t isSpan => ?_, h.inside⟩
  rcases List.mem_append.1 isSpan with isOther | isOwn
  · obtain ⟨n, mem, same⟩ := own t isOther
    exact ⟨_, List.mem_singleton_self _, n, .part mem (.self n), same⟩
  · exact ⟨_, List.mem_singleton_self _, _, .self _, (List.mem_singleton.1 isOwn).symm⟩

theorem node (h : Shown es ns) : Shown (⟨part, [s]⟩ :: es) [.mk s ns] := named (List.forall_mem_nil _) h

end Shown

theorem Ident.shown (id : Ident) : Shown id.outline [id.node] := .node .nil

theorem idents_shown (ids : List Ident) : Shown (identOutlines ids) (ids.map Ident.node) := by
  induction ids with
  | nil => exact .nil
  | cons id ids ih => exact .append id.shown ih

mutual

theorem Expr.shown : ∀ e : Expr, Shown e.outline [e.node]
  | .name id => id.shown
  | .int _ _ | .float _ _ | .openBound _ => .node .nil
  | .array items _ => .node (exprs_shown items)
  | .arrayType dims base _ => .node (.append (exprs_shown dims) base.shown)
  | .upperBound upper _ => .node upper.shown
  | .closedBound lower upper _ => .node (.append lower.shown upper.shown)
  | .index base index _ _ => .node (.append base.shown index.shown)
  | .property base _ nameSpan _ => by
    have none : Shown [] [.mk nameSpan []] := .nil
    have parts : Shown (base.outline ++ []) [base.node, .mk nameSpan []] := .append base.shown none
    rw [List.append_nil] at parts
    have own : ∀ t ∈ [nameSpan], ∃ n ∈ [base.node, .mk nameSpan []], n.span = t :=
      List.forall_mem_singleton.2 ⟨_, List.mem_cons_of_mem _ (List.mem_singleton_self _), rfl⟩
    exact .named own parts
  | .unary _ operand _ => .node operand.shown
  | .binary _ left right _ => .node (.append left.shown right.shown)
  | .call callee inputs _ outputs span => by
    have parts := Shown.append callee.shown (.append (exprs_shown inputs) (outputs_shown outputs))
    rw [← List.append_assoc] at parts
    exact .node parts
  | .decl type name _ => .node (.append type.shown name.shown)

theorem exprs_shown : ∀ es : List Expr, Shown (exprOutlines es) (exprNodes es)
  | [] => .nil
  | e :: es => .append e.shown (exprs_shown es)

theorem Output.shown : ∀ o : Output, Shown o.outline [o.node]
  | .inline _ => .node .nil
  | .target target _ => .node target.shown

theorem outputs_shown : ∀ os : List Output, Shown (outputOutlines os) (outputNodes os)
  | [] => .nil
  | o :: os => .append o.shown (outputs_shown os)

end

mutual

theorem Stmt.shown : ∀ s : Stmt, Shown s.outline [s.node]
  | .io _ type names _ => .node (.append type.shown (idents_shown names))
  | .decl type name _ _ => .node (.node (.append type.shown name.shown))
  | .assign target value _ => .node (.append target.shown value.shown)
  | .macroDef name inputs outputs body header _ => by
    let signature := name.node :: (inputs.map Ident.node ++ outputs.map Ident.node)
    have inner : Shown (name.outline ++ identOutlines inputs ++ identOutlines outputs) signature := by
      rw [List.append_assoc]
      exact .append name.shown (.append (idents_shown inputs) (idents_shown outputs))
    have parts : Shown _ [.mk header signature, body.node] := .append inner.inside body.shown
    have own : ∀ t ∈ [header], ∃ n ∈ [.mk header signature, body.node], n.span = t :=
      List.forall_mem_singleton.2 ⟨_, List.mem_cons_self, rfl⟩
    exact .named own parts
  | .call call _ => .node call.shown
  | .expr value _ => .node value.shown
  | .branch clauses otherwise _ => .node (.append (clauses_shown clauses) (otherwise_shown otherwise))
  | .loop counter start stop _ body _ =>
    .node (.append (.append (.append counter.shown start.shown) stop.shown) body.shown)
  | .static exports body _ => .node (.append (idents_shown exports) body.shown)
  | .assert condition _ => .node condition.shown
  | .ret _ | .includeFile _ _ => .node .nil
  | .block b => b.shown

theorem Block.shown : ∀ b : Block, Shown b.outline [b.node]
  | .mk statements _ => .node (stmts_shown statements)

theorem stmts_shown : ∀ ss : List Stmt, Shown (stmtOutlines ss) (stmtNodes ss)
  | [] => .nil
  | s :: ss => .append s.shown (stmts_shown ss)

theorem clauses_shown : ∀ cs : List Clause, Shown (clauseOutlines cs) (clauseNodes cs)
  | [] => .nil
  | .mk condition body :: rest => .append (.append condition.shown body.shown) (clauses_shown rest)

theorem otherwise_shown : ∀ b : Option Block, Shown (otherwiseOutline b) (otherwiseNodes b)
  | none => .nil
  | some body => body.shown

end

/-- Every span that the outline of a file lists is that of a node. -/
theorem File.shown (f : File) : Shown f.outline [f.node] := .node (stmts_shown f.statements)

end SignalLang.Tree

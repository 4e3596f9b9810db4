/- Module: Mewa/Compiler/Ast
   digest: The AST as a fold over parse trees, and the two stacks of the parser as such folds. -/

import Mewa.Compiler.Run

set_option autoImplicit false
set_option relaxedAutoImplicit false

namespace Mewa.Compiler

open Mewa.Lib

abbrev ActionForest := ParseForest Lexem Action

/-- What is counted while the nodes are made. -/
@[ext] structure FoldState where
  scopestep : Int := 0
  line : Int := 0

/-- The nodes of a lexem: a keyword has none. -/
def lexemNodes (lexer : Lexer) (lexem : Lexem) (s : FoldState) : List AstNode × FoldState :=
  match lexer.isKeyword lexem.id with
  | .ok true => ([], s)
  | _ => ([.lexem lexem.name lexem.value lexem.line], { s with line := lexem.line })

/-- The nodes of a production: those of its children, or one node made of them for a call. -/
def productionNodes (action : Action) (scopeStart : Int) (args : List AstNode) (s : FoldState) :
    List AstNode × FoldState :=
  if action.call = 0 then (args, s)
  else
    let scopestep := if action.scopeflag = .NoScope then s.scopestep else s.scopestep + 1
    let extent : NodeExtent :=
      if action.scopeflag = .Scope then .scope scopeStart scopestep else .step scopestep
    ([.struct action.call s.line extent args], { s with scopestep := scopestep })

/-- The nodes of a forest of parse trees, from the left. -/
def astOf (lexer : Lexer) : ActionForest → FoldState → List AstNode × FoldState
  | .nil, s => ([], s)
  | .leaf lexem rest, s =>
    let (nodes, s) := lexemNodes lexer lexem s
    let (more, s) := astOf lexer rest s
    (nodes ++ more, s)
  | .node action children rest, s =>
    let (args, inner) := astOf lexer children s
    let (nodes, s) := productionNodes action s.scopestep args inner
    let (more, s) := astOf lexer rest s
    (nodes ++ more, s)

section Fold

variable {lexer : Lexer}

theorem astOf_append (f g : ActionForest) (s : FoldState) :
    astOf lexer (f.append g) s =
      ((astOf lexer f s).1 ++ (astOf lexer g (astOf lexer f s).2).1,
        (astOf lexer g (astOf lexer f s).2).2) := by
  induction f generalizing s with
  | nil => simp [ParseForest.append, astOf]
  | leaf lexem rest ih => simp only [ParseForest.append, astOf, ih, List.append_assoc]
  | node action children rest _ ih =>
    simp only [ParseForest.append, astOf, ih, List.append_assoc]

theorem astOf_leaf (lexem : Lexem) (s : FoldState) :
    astOf lexer (.leaf lexem .nil) s = lexemNodes lexer lexem s := by
  simp [astOf]

theorem astOf_node (action : Action) (children : ActionForest) (s : FoldState) :
    astOf lexer (.node action children .nil) s =
      productionNodes action s.scopestep (astOf lexer children s).1
        (astOf lexer children s).2 := by
  simp [astOf]

end Fold

/-- The entry of the state stack for the nodes of a tree: where they are on the Lua stack, if there
    are any, and the counter before them. -/
def stateFor (index : Int) (below nodes : List AstNode) (scopestep : Int) : State where
  index := index
  luastki := if nodes = [] then 0 else (below.length : Int) + 1
  luastkn := nodes.length
  scopecnt := scopestep

/-- The states above the first one stand for the trees of a forest, and the Lua stack for its
    nodes. -/
inductive StackOf (lexer : Lexer) :
    List State → ActionForest → FoldState → List AstNode → Prop
  | bottom : StackOf lexer [⟨1, 0, 0, 0⟩] .nil {} []
  | push {stack : List State} {f : ActionForest} {s : FoldState} {below : List AstNode}
      (index : Int) (tree : ActionForest) (single : tree.length = 1) :
      StackOf lexer stack f s below →
      StackOf lexer (stateFor index below (astOf lexer tree s).1 s.scopestep :: stack)
        (f.append tree) (astOf lexer tree s).2 (below ++ (astOf lexer tree s).1)

namespace StackOf

variable {lexer : Lexer} {stack : List State} {f : ActionForest} {s : FoldState}
  {nodes : List AstNode}

theorem length_stack (h : StackOf lexer stack f s nodes) : stack.length = f.length + 1 := by
  induction h with
  | bottom => rfl
  | push index tree single _ ih =>
    rw [List.length_cons, ParseForest.length_append, ih, single]

theorem ast_eq (h : StackOf lexer stack f s nodes) : astOf lexer f {} = (nodes, s) := by
  induction h with
  | bottom => rfl
  | push index tree single _ ih => rw [astOf_append, ih]

theorem eq_bottom (h : StackOf lexer stack f s nodes) (single : stack.length = 1) :
    stack = [⟨1, 0, 0, 0⟩] ∧ f = .nil ∧ s = {} := by
  cases h with
  | bottom => exact ⟨rfl, rfl, rfl⟩
  | push index tree _ below =>
    have len := below.length_stack
    simp only [List.length_cons] at single
    omega

theorem last_end (h : StackOf lexer stack f s nodes) :
    match stack.find? fun st => st.luastkn ≠ 0 with
    | none => nodes = []
    | some st => st.luastki + st.luastkn = (nodes.length : Int) + 1 := by
  induction h with
  | bottom => simp
  | @push stack f s below index tree single _ ih =>
    by_cases empty : (astOf lexer tree s).1 = []
    · simpa [stateFor, empty] using ih
    · have some_nodes : (((astOf lexer tree s).1.length : Nat) : Int) ≠ 0 := by
        simpa using empty
      simp only [stateFor, List.find?_cons, decide_eq_true some_nodes, empty, if_false,
        List.length_append]
      omega

theorem getNextLuaStackIndex_eq (h : StackOf lexer stack f s nodes) {index : Int}
    (next : getNextLuaStackIndex stack = .ok index) : index = (nodes.length : Int) + 1 := by
  have last := h.last_end
  unfold getNextLuaStackIndex at next
  cases found : stack.find? fun st => st.luastkn ≠ 0 with
  | none =>
    simp only [found] at next last
    obtain rfl := Except.ok.inj next
    simp [last]
  | some st =>
    simp only [found] at next last
    split at next
    · obtain ⟨_, _, next⟩ := bind_eq_ok.mp next
      simp at next
    · obtain rfl := Except.ok.inj next
      exact last

theorem first_start (h : StackOf lexer stack f s nodes) :
    match stack.reverse.find? fun st => st.luastki ≠ 0 with
    | none => nodes = []
    | some st => st.luastki = 1 := by
  induction h with
  | bottom => simp
  | @push stack f s below index tree single _ ih =>
    rw [List.reverse_cons, List.find?_append]
    cases found : stack.reverse.find? fun st => st.luastki ≠ 0 with
    | some st =>
      rw [found] at ih
      exact ih
    | none =>
      rw [found] at ih
      subst ih
      by_cases empty : (astOf lexer tree s).1 = []
      · simp [stateFor, empty]
      · simp [stateFor, empty]

/-- The last states without the others: their trees, and where the nodes of these are on the Lua
    stack. -/
structure Popped (lexer : Lexer) (stack : List State) (count : Nat) (f : ActionForest)
    (s : FoldState) (nodes : List AstNode) (before trees : ActionForest) (start : FoldState)
    (below : List AstNode) : Prop where
  stackOf : StackOf lexer (stack.drop count) before start below
  forest : f = before.append trees
  length : trees.length = count
  fold : (astOf lexer trees start).2 = s
  nodes_eq : nodes = below ++ (astOf lexer trees start).1
  first : ((stack.take count).reverse.find? fun st => st.luastki ≠ 0).map State.luastki =
    if (astOf lexer trees start).1 = [] then none else some ((below.length : Int) + 1)
  last : ((stack.take count).find? fun st => st.luastki ≠ 0).map
      (fun st => st.luastki + st.luastkn) =
    if (astOf lexer trees start).1 = [] then none else some ((nodes.length : Int) + 1)
  same : ((stack.take count).find? fun st => st.luastkn ≠ 0) =
    (stack.take count).find? fun st => st.luastki ≠ 0
  counter : ∀ st, stack[count - 1]? = some st → 0 < count → st.scopecnt = start.scopestep
  empty : count = 0 → start = s

theorem pop (count : Nat) (h : StackOf lexer stack f s nodes) (deep : count < stack.length) :
    ∃ before trees start below, Popped lexer stack count f s nodes before trees start below := by
  induction count generalizing stack f s nodes with
  | zero =>
    refine ⟨f, .nil, s, nodes, h, (ParseForest.append_nil f).symm, rfl, rfl, ?_, ?_, ?_, ?_, ?_, ?_⟩
      <;> simp [astOf]
  | succ count ih =>
    cases h with
    | bottom => simp at deep
    | @push stack f s0 nodes0 index tree single h =>
      obtain ⟨before, trees, start, below, popped⟩ := ih h (by simpa using deep)
      have split : astOf lexer (trees.append tree) start =
          ((astOf lexer trees start).1 ++ (astOf lexer tree s0).1, (astOf lexer tree s0).2) := by
        rw [astOf_append, popped.fold]
      have nodes_eq := popped.nodes_eq
      refine ⟨before, trees.append tree, start, below, popped.stackOf,
        ?_, ?_, ?_, ?_, ?_, ?_, ?_, ?_, ?_⟩
      · rw [popped.forest, ParseForest.append_assoc]
      · rw [ParseForest.length_append, popped.length, single]
      · rw [split]
      · rw [split, nodes_eq, List.append_assoc]
      · rw [split, List.take_succ_cons, List.reverse_cons, List.find?_append, Option.map_or,
          popped.first]
        by_cases none_before : (astOf lexer trees start).1 = []
        · have len : nodes0.length = below.length := by
            rw [nodes_eq, none_before, List.append_nil]
          by_cases none_here : (astOf lexer tree s0).1 = []
          · simp [none_before, none_here, stateFor]
          · have pos : ((below.length : Int) + 1) ≠ 0 := by omega
            simp [none_before, none_here, stateFor, len, pos]
        · simp [none_before]
      · rw [split, List.take_succ_cons, List.find?_cons]
        by_cases none_here : (astOf lexer tree s0).1 = []
        · simpa [none_here, stateFor] using popped.last
        · have pos : ((nodes0.length : Int) + 1) ≠ 0 := by omega
          simp only [none_here, stateFor, if_false, List.append_eq_nil_iff, and_false,
            decide_eq_true pos, Option.map_some, List.length_append]
          congr 1
          omega
      · rw [List.take_succ_cons, List.find?_cons, List.find?_cons, popped.same]
        by_cases none_here : (astOf lexer tree s0).1 = []
        · simp [none_here, stateFor]
        · have pos : ((nodes0.length : Int) + 1) ≠ 0 := by omega
          simp [none_here, stateFor, pos]
      · intro st hst _
        cases count with
        | zero =>
          obtain rfl : stateFor index nodes0 (astOf lexer tree s0).1 s0.scopestep = st := by
            simpa using hst
          rw [popped.empty rfl]
          rfl
        | succ count => exact popped.counter st (by simpa using hst) (by omega)
      · intro zero
        omega

end StackOf

end Mewa.Compiler

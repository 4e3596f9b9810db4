/- Module: Mewa/TypeDb/Isolation
   digest: What a definition changes for the queries about other contexts and names. -/

import Mewa.TypeDb.Aliases

set_option autoImplicit false
set_option relaxedAutoImplicit false

namespace Mewa

open Mewa.Lib Mewa.Lib.Paths Mewa.Lib.BestFirst

namespace TypeDatabase

def ReducesTo (db : TypeDatabase) (step : Int) (contextTypes : List Int) (selectTags : TagMask)
    (type : Int) : Prop :=
  ∃ r : Rooted Int Int, r.1 ∈ contextTypes ∧
    IsPath (db.reductionEdges step selectTags .matchNothing) r.1 r.2 ∧ r.last = type

section Resolve

variable {db db' : TypeDatabase} {args : ResolveArgs} {contextTypes : List Int}

theorem ReducesTo.start {a step : Int} {selectTags : TagMask} (mem : a ∈ contextTypes) :
    db.ReducesTo step contextTypes selectTags a :=
  ⟨(a, []), mem, trivial, rfl⟩

theorem ReducesTo.follow {a step : Int} {selectTags : TagMask}
    (reduces : db.ReducesTo step contextTypes selectTags a)
    {redulist : List (ResultElement Int Int)}
    (call : db.reduTable.get step a selectTags = .ok redulist) {redu : ResultElement Int Int}
    (mem : redu ∈ redulist) : db.ReducesTo step contextTypes selectTags redu.right := by
  obtain ⟨⟨b, p⟩, start, path, ends⟩ := reduces
  have ends : endOf b p = a := ends
  refine ⟨(b, p ++ [reductionEdge .matchNothing redu]), start, ?_, ?_⟩
  · refine isPath_append.mpr ⟨path, ?_, trivial⟩
    rw [ends]
    simp only [reductionEdges, call]
    exact List.mem_map.mpr ⟨redu, mem, rfl⟩
  · show endOf b (p ++ [_]) = _
    rw [endOf_append]
    rfl

private def OnlyReduced (db : TypeDatabase) (args : ResolveArgs) (contextTypes : List Int)
    (stack : ReduStack) : Prop :=
  ∀ ee ∈ stack, db.ReducesTo args.step contextTypes args.selectTags ee.type

private theorem OnlyReduced.push {stack : ReduStack}
    (only : OnlyReduced db args contextTypes stack) {type constructor pathlen : Int}
    {prev : Nat} (reduces : db.ReducesTo args.step contextTypes args.selectTags type)
    {stack' : ReduStack} {index : Option Nat}
    (call : stack.pushIfNew type constructor prev pathlen = .ok (stack', index)) :
    OnlyReduced db args contextTypes stack' := by
  rw [ReduStack.pushIfNew] at call
  obtain ⟨known, -, call⟩ := bind_eq_ok.mp call
  split at call
  · obtain ⟨rfl, -⟩ := Prod.mk.inj (Except.ok.inj call)
    exact only
  · obtain ⟨rfl, -⟩ := Prod.mk.inj (Except.ok.inj call)
    intro ee mem
    rcases List.mem_append.mp mem with mem | mem
    · exact only ee mem
    · rw [List.mem_singleton.mp mem]
      exact reduces

private theorem OnlyReduced.fold {stack stack' : ReduStack}
    (only : OnlyReduced db args contextTypes stack) {queue queue' : List ReduQueueElem}
    {qe : ReduQueueElem} {elem : ReduStackElem} (mem : elem ∈ stack)
    {redulist : List (ResultElement Int Int)}
    (call : db.reduTable.get args.step elem.type args.selectTags = .ok redulist)
    (fold : redulist.foldlM (pushReduction qe elem) (stack, queue) = .ok (stack', queue')) :
    OnlyReduced db args contextTypes stack' := by
  refine foldlM_invariant (fun s => OnlyReduced db args contextTypes s.1) ?_ only fold
  rintro ⟨stack, queue⟩ redu ⟨stack', queue'⟩ inList only push
  rw [pushReduction] at push
  obtain ⟨⟨stack'', index⟩, new, push⟩ := bind_eq_ok.mp push
  have only' := only.push ((‹OnlyReduced db args contextTypes _› elem mem).follow call inList) new
  cases index with
  | none =>
    obtain ⟨rfl, -⟩ := Prod.mk.inj (Except.ok.inj push)
    exact only'
  | some index =>
    obtain ⟨rfl, -⟩ := Prod.mk.inj (Except.ok.inj push)
    exact only'

private theorem OnlyReduced.start {stack : ReduStack} {queue : List ReduQueueElem}
    (call : contextTypes.zipIdx.foldlM db.pushContext ([], []) = .ok (stack, queue)) :
    OnlyReduced db args contextTypes stack := by
  refine foldlM_invariant (fun s => OnlyReduced db args contextTypes s.1) ?_
    (fun ee mem => absurd mem List.not_mem_nil) call
  rintro ⟨stack, queue⟩ ⟨a, i⟩ ⟨stack', queue'⟩ mem only push
  rw [pushContext] at push
  split at push
  · simp [throw] at push
  · rw [ReduStack.pushNonDuplicateStart] at push
    have listed : a ∈ contextTypes := (List.mem_zipIdx' mem).2 ▸ List.getElem_mem _
    by_cases known : (stack.any fun ee => ee.type = a) = true
    · simp only [known, if_true] at push
      obtain ⟨rfl, -⟩ := Prod.mk.inj (Except.ok.inj push)
      exact only
    · simp only [known] at push
      obtain ⟨rfl, -⟩ := Prod.mk.inj (Except.ok.inj push)
      intro ee mem
      rcases List.mem_append.mp mem with mem | mem
      · exact only ee mem
      · rw [List.mem_singleton.mp mem]
        exact .start listed

/-- The two databases show the same types to a search for a name. -/
structure SameView (db db' : TypeDatabase) (args : ResolveArgs) (contextTypes : List Int) : Prop where
  reductions : db'.reduTable = db.reduTable
  shown : ∀ a, db.ReducesTo args.step contextTypes args.selectTags a →
    db'.typeTable.get args.step ⟨a, args.nameid⟩ = db.typeTable.get args.step ⟨a, args.nameid⟩
  items : ∀ a start, db.ReducesTo args.step contextTypes args.selectTags a →
    db.typeTable.get args.step ⟨a, args.nameid⟩ = .ok start →
    db'.collectResultItems db'.typerecMap.length start =
      db.collectResultItems db.typerecMap.length start

private theorem resolveLoop_congr (same : SameView db db' args contextTypes) :
    ∀ (fuel : Nat) (stack : ReduStack) (queue : List ReduQueueElem) (rt : ResolveResult)
      (alt : Bool), OnlyReduced db args contextTypes stack →
      db'.resolveLoop args fuel stack queue rt alt = db.resolveLoop args fuel stack queue rt alt := by
  intro fuel
  induction fuel with
  | zero =>
    intro stack queue rt alt _
    cases queue <;> rfl
  | succ fuel ih =>
    intro stack queue rt alt only
    cases queue with
    | nil => rfl
    | cons qe queue =>
      rw [resolveLoop, resolveLoop]
      split
      · rfl
      cases node : stack[qe.index]? with
      | none => rfl
      | some elem =>
        have mem := List.mem_of_getElem? node
        have shown := same.shown elem.type (only elem mem)
        simp only [shown, same.reductions]
        cases query : db.typeTable.get args.step ⟨elem.type, args.nameid⟩ with
        | error e => rfl
        | ok typerecidx =>
          simp only [ok_bind, same.items elem.type typerecidx (only elem mem) query]
          split
          · rfl
          have rest (rt : ResolveResult) (alt : Bool) :
              (do
                let redulist ← db.reduTable.get args.step elem.type args.selectTags
                let state ← redulist.foldlM (pushReduction qe elem) (stack, queue)
                db'.resolveLoop args fuel state.1 state.2 rt alt) =
              (do
                let redulist ← db.reduTable.get args.step elem.type args.selectTags
                let state ← redulist.foldlM (pushReduction qe elem) (stack, queue)
                db.resolveLoop args fuel state.1 state.2 rt alt) := by
            apply bind_congr_ok
            intro redulist call
            apply bind_congr_ok
            rintro ⟨stack', queue'⟩ fold
            exact ih stack' queue' rt alt (only.fold mem call fold)
          split
          · apply bind_congr_ok
            intro root _
            apply bind_congr_ok
            intro items _
            exact rest _ true
          · exact rest rt alt

private theorem pushContext_congr (valid : ∀ c ∈ contextTypes, db.validHandle 0 c)
    (grown : db.typerecMap.length ≤ db'.typerecMap.length) :
    ∀ (k : Nat) (state : ReduStack × List ReduQueueElem),
      (contextTypes.zipIdx k).foldlM db'.pushContext state =
        (contextTypes.zipIdx k).foldlM db.pushContext state := by
  induction contextTypes with
  | nil => intro k state; rfl
  | cons c rest ih =>
    intro k state
    have here := valid c List.mem_cons_self
    have here' := TypesSound.handle_mono grown here
    have same : db'.pushContext state (c, k) = db.pushContext state (c, k) := by
      simp only [pushContext, here, here', not_true_eq_false, if_false]
    rw [List.zipIdx_cons, List.foldlM_cons, List.foldlM_cons, same]
    apply bind_congr_ok
    intro state' _
    exact ih (fun c mem => valid c (List.mem_cons_of_mem _ mem)) (k + 1) state'

private theorem resolveType_congr {name : String} {selectTags : TagMask} {epsilon : ℚ} {step : Int}
    (fits : NameFits name) (valid : ∀ c ∈ contextTypes, db.validHandle 0 c)
    (grown : db.typerecMap.length ≤ db'.typerecMap.length)
    (lookup : db'.identMap.find name = db.identMap.find name)
    (same : SameView db db' ⟨step, db.identMap.find name, selectTags, epsilon⟩ contextTypes)
    (fuel : Nat) :
    db'.resolveType fuel epsilon step contextTypes name selectTags =
      db.resolveType fuel epsilon step contextTypes name selectTags := by
  rw [resolveType_of_fits fits, resolveType_of_fits fits, lookup]
  split
  · rfl
  · rw [pushContext_congr valid grown]
    apply bind_congr_ok
    rintro ⟨stack, queue⟩ start
    exact resolveLoop_congr same fuel stack queue {} false (OnlyReduced.start start)

end Resolve

/-- The answers to the queries about other contexts and names are the same. Names fit, contexts are
    those there were, and a search may need more iterations. -/
structure ChangesOnly (contextType : Int) (name : String) (db db' : TypeDatabase) : Prop where
  getType : ∀ (scope : Scope) (contextType' : Int) (name' : String) (parameter : List Int),
    db.validHandle 0 contextType' → NameFits name' →
    ¬ (contextType' = contextType ∧ name' = name) →
    (db'.getType scope contextType' name' parameter).2 =
      (db.getType scope contextType' name' parameter).2
  getTypes : ∀ (scope : Scope) (contextType' : Int) (name' : String),
    db.validHandle 0 contextType' → NameFits name' →
    ¬ (contextType' = contextType ∧ name' = name) →
    (db'.getTypes scope contextType' name').2 = (db.getTypes scope contextType' name').2
  resolveType : ∀ (epsilon : ℚ) (step : Int) (contextTypes : List Int) (name' : String)
    (selectTags : TagMask), (∀ c ∈ contextTypes, db.validHandle 0 c) → NameFits name' →
    ¬ (db.ReducesTo step contextTypes selectTags contextType ∧ name' = name) →
    ∃ bound, ∀ fuel ≥ bound,
      db'.resolveType fuel epsilon step contextTypes name' selectTags =
        db.resolveType fuel epsilon step contextTypes name' selectTags

theorem ChangesOnly.refl (contextType : Int) (name : String) (db : TypeDatabase) :
    ChangesOnly contextType name db db where
  getType _ _ _ _ _ _ _ := rfl
  getTypes _ _ _ _ _ _ := rfl
  resolveType _ _ _ _ _ _ _ _ := ⟨0, fun _ _ => rfl⟩

section Definitions

variable {db db' : TypeDatabase} {contextType : Int} {name : String}

theorem Enters.changesOnly (enters : Enters contextType name db db') (state : ApiReached db)
    (state' : Reached db') (fits : NameFits name)
    (keeps : KeepsLists (db.queryKey contextType name) db db') :
    ChangesOnly contextType name db db' where
  getType scope _ _ parameter valid fits' other :=
    enters.getType state.apart keeps valid fits' other scope parameter
  getTypes scope _ _ valid fits' other :=
    enters.getTypes state.apart keeps valid fits' other scope
  resolveType epsilon step contextTypes name' selectTags valid fits' other := by
    have apart := state.apart
    have grown := enters.grown.length_le
    by_cases known : ∃ ident, db.identMap.Knows ident name'
    · obtain ⟨ident, knows⟩ := known
      have knows' := knows.mono enters.grown.names
      have lookup := knows.find apart.names
      refine ⟨0, fun fuel _ => resolveType_congr fits' valid grown ?_ ?_ fuel⟩
      · rw [lookup, knows'.find enters.apart.names]
      · have ne (a : Int) (reduces : db.ReducesTo step contextTypes selectTags a) :
            (⟨a, ident⟩ : TypeDef) ≠ db.queryKey contextType name := by
          refine (enters.known_key apart knows fun same => other ?_).2.2
          exact ⟨same.1 ▸ reduces, same.2⟩
        rw [lookup]
        refine ⟨enters.reductions, fun a reduces => (enters.queries apart (ne a reduces)).1 step,
          fun a start reduces query => ?_⟩
        obtain ⟨n, items, rfl, list, short⟩ := apart.list (Or.inr ⟨step, query⟩)
        have list' := keeps _ (ne a reduces) _ items (Or.inr ⟨step, query⟩) list
        rw [list.collect short, list'.collect (short.trans grown)]
    · have unknown := not_exists.mp known
      have lookup := IdentMap.find_unknown unknown
      by_cases same : name' = name
      · -- the name is new, and the search meets no context that defines it
        subst same
        obtain ⟨result, bound, call, exact⟩ :=
          (resolveType_exact state' epsilon step contextTypes fits' selectTags).exact
            fun c mem => TypesSound.handle_mono grown (valid c mem)
        refine ⟨bound, fun fuel enough => ?_⟩
        rw [call fuel enough, exact.nothing (exact.undefined_iff.mpr ?_),
          resolveType_of_fits fits', if_pos lookup]
        rintro ⟨a, p⟩ leads
        obtain ⟨type, visible⟩ := leads.defines
        have knows := IdentMap.enter_knows db.identMap name'
        rw [← enters.names] at knows
        have found := visible.found
        rw [knows.find enters.apart.names] at found
        have reduces : db.ReducesTo step contextTypes selectTags (Rooted.last (a, p)) := by
          refine ⟨(a, p), leads.start, ?_, rfl⟩
          have path := leads.path
          have edges : db'.reductionEdges step selectTags .matchNothing =
              db.reductionEdges step selectTags .matchNothing := by
            ext type
            simp only [reductionEdges, enters.reductions]
          rwa [edges] at path
        have ne : (⟨Rooted.last (a, p), (db.identMap.enter name').2⟩ : TypeDef) ≠
            db.queryKey contextType name' := by
          intro eq
          have context : Rooted.last (a, p) = contextType := congrArg TypeDef.contextType eq
          exact other ⟨context ▸ reduces, rfl⟩
        rw [(enters.queries apart ne).1] at found
        exact visible.defined (apart.unknown_key
          (fun other _ => IdentMap.enter_unknown unknown other) (Or.inr ⟨step, found⟩))
      · have unknown' : ∀ ident, ¬ db'.identMap.Knows ident name' := by
          intro ident knows
          rw [enters.names] at knows
          exact unknown ident (IdentMap.knows_of_enter knows same)
        refine ⟨0, fun fuel _ => ?_⟩
        rw [resolveType_of_fits fits', resolveType_of_fits fits', IdentMap.find_unknown unknown',
          lookup, if_pos rfl, if_pos rfl]

end Definitions

/-- A definition links the new record from a last one: its key has types, none of them with the
    same parameters. -/
structure Extends (db : TypeDatabase) (scope : Scope) (contextType : Int) (name : String)
    (constructor : Int) (parameter : List TypeConstructorPair) (last : Nat) : Prop where
  accepts : db.Accepts contextType constructor parameter
  list : ∃ start front,
    db.typeTable.getDef scope (db.queryKey contextType name) = .ok start ∧
      Overloads db.typerecMap start (front ++ [(last + 1 : Int)]) ∧
      ∀ t ∈ front ++ [(last + 1 : Int)], db.hasSignature parameter t = false

/-- The list of another key contains the type, so that one of the two is an alias. -/
def SharedBy (db : TypeDatabase) (key : TypeDef) (last : Nat) : Prop :=
  ∃ other ≠ key, ∃ start items, db.Shows other start ∧ Overloads db.typerecMap start items ∧
    (last + 1 : Int) ∈ items

section Define

variable {db : TypeDatabase} {scope : Scope} {contextType constructor : Int} {name : String}
  {parameter : List TypeConstructorPair}

private theorem pushed_search (apart : Apart db) {start : Nat} {items : List Int}
    (list : Overloads db.typerecMap start items) (short : items.length ≤ db.typerecMap.length) :
    (db.pushed scope contextType name constructor parameter).findTypeWithSignature parameter
        (db.pushed scope contextType name constructor parameter).typerecMap.length start 0 =
      .ok (firstOf (db.hasSignature parameter) items 0) := by
  have grown := grown_pushed db scope contextType name constructor parameter
  have search := @Overloads.search (db.pushed scope contextType name constructor parameter)
    apart.pushed_slices parameter _ _ (list.append _) start _ 0 rfl (short.trans grown.length_le)
  rw [search]
  congr 1
  exact firstOf_congr 0 fun t mem => grown.hasSignature apart.slices parameter (list.inRange mem)

private theorem extends_of_linked (apart : Apart db)
    (accepts : db.Accepts contextType constructor parameter) {known : Int} {last : Nat}
    (call : (db.typeTable.getOrSet scope (db.queryKey contextType name)
      ((db.typerecMap.length + 1 : Nat) : Int)).2 = .ok known) (positive : known ≠ 0)
    (search : (db.pushed scope contextType name constructor parameter).findTypeWithSignature
      parameter (db.pushed scope contextType name constructor parameter).typerecMap.length
      known.toNat 0 = .ok (0, last + 1)) :
    db.Extends scope contextType name constructor parameter last := by
  have query : db.typeTable.getDef scope (db.queryKey contextType name) = .ok known := by
    rcases ScopedMap.getOrSet_getDef apart.sound.table (db.queryKey contextType name) scope
      ((db.typerecMap.length + 1 : Nat) : Int) with ⟨old, query, eq⟩ | ⟨-, new⟩
    · rw [eq] at call
      rw [query, Except.ok.inj call]
    · exact absurd ((new known call).trans apart.sound.nullval) positive
  obtain ⟨n, items, rfl, list, short⟩ := apart.list (Or.inl ⟨scope, query⟩)
  rw [Int.toNat_natCast, pushed_search apart list short] at search
  obtain ⟨others, ⟨-, zero⟩ | ⟨front, rfl⟩⟩ :=
    firstOf_none (fun t mem => (list.inRange mem).1) (Except.ok.inj search)
  · omega
  · exact ⟨accepts, n, front, query, list, others⟩

private theorem Extends.linked (apart : Apart db) (fits : NameFits name) {last : Nat}
    (extends_ : db.Extends scope contextType name constructor parameter last) :
    (db.defineType scope contextType name constructor parameter).1.typerecMap =
      (db.pushed scope contextType name constructor parameter).typerecMap.modify last fun tr =>
        { tr with next := db.typerecMap.length + 1 } := by
  obtain ⟨accepts, start, front, query, list, others⟩ := extends_
  obtain ⟨n, items, rfl, list', short⟩ := apart.list (Or.inl ⟨scope, query⟩)
  obtain rfl := list'.unique list
  have positive : (n : Int) ≠ 0 := by
    intro zero
    rw [zero] at list
    have := list.unique .nil
    simp at this
  have search : (db.pushed scope contextType name constructor parameter).findTypeWithSignature
      parameter (db.pushed scope contextType name constructor parameter).typerecMap.length
      (n : Int).toNat 0 = .ok (0, last + 1) := by
    rw [Int.toNat_natCast, pushed_search apart list short]
    exact congrArg Except.ok (@firstOf_all _ _ (last + 1) 0 others)
  rcases ScopedMap.getOrSet_getDef apart.sound.table (db.queryKey contextType name) scope
    ((db.typerecMap.length + 1 : Nat) : Int) with ⟨old, query', eq⟩ | ⟨null, -⟩
  · obtain rfl := Except.ok.inj (query.symm.trans query')
    have call := congrArg Prod.snd eq
    rw [defineType_linked accepts fits call positive search (by omega)]
    rfl
  · rw [apart.sound.nullval] at null
    exact absurd (Except.ok.inj (query.symm.trans null)) positive

/-- A definition leaves the lists of the other keys as they are, unless it extends one of them. -/
private theorem keepsLists_of_apart (apart : Apart db) (fits : NameFits name)
    (accepts : db.Accepts contextType constructor parameter)
    (separate : ¬ ∃ last, db.Extends scope contextType name constructor parameter last ∧
      db.SharedBy (db.queryKey contextType name) last) :
    KeepsLists (db.queryKey contextType name) db
      (db.defineType scope contextType name constructor parameter).1 := by
  intro other ne start items shows list
  rcases @defineType_state db scope contextType constructor name parameter accepts fits with
    state | ⟨known, last, call, positive, search, state⟩
  · rw [state]
    exact list.append _
  · rw [state]
    refine (list.append _).modify (fun mem => separate ⟨last, ?_, ?_⟩) _
    · exact extends_of_linked apart accepts call positive search
    · exact ⟨other, ne, start, items, shows, list, mem⟩

theorem getTypes_of_list (apart : Apart db) {contextType' : Int}
    (valid : db.validHandle 0 contextType') {name' : String} (fits : NameFits name') {ident : Int}
    (knows : db.identMap.Knows ident name') {start : Int}
    (query : db.typeTable.getDef scope ⟨contextType', ident⟩ = .ok start) {items : List Int}
    (list : Overloads db.typerecMap start items) :
    (db.getTypes scope contextType' name').2 = .ok items := by
  obtain ⟨n, items', rfl, list', short⟩ := apart.list (Or.inl ⟨scope, query⟩)
  obtain rfl := list'.unique list
  have ident := knows.enter apart.names
  simp only [TypeDatabase.getTypes, valid, not_true_eq_false, if_false,
    db.identMap.get_of_fits fits, ident, query, ok_bind]
  exact @Overloads.collect _ _ { db with identMap := (db.identMap.enter name').1 } list _ short

theorem reductionEdges_matchNothing (db : TypeDatabase) (step : Int) (selectTagsCount : TagMask)
    (type : Int) : db.reductionEdges step .matchNothing selectTagsCount type = [] := by
  have collect {list : List (ListElement Int Int)} : ∀ (fuel : Nat) (li : Option Nat)
      (rt rt' : List (ResultElement Int Int)),
      ScopedRelationMap.collectList list .matchNothing fuel li rt = .ok rt' → rt' = rt := by
    intro fuel
    induction fuel with
    | zero =>
      intro li rt rt' call
      cases li with
      | none => exact (Except.ok.inj call).symm
      | some li => simp [ScopedRelationMap.collectList] at call
    | succ fuel ih =>
      intro li rt rt' call
      cases li with
      | none => exact (Except.ok.inj call).symm
      | some li =>
        rw [ScopedRelationMap.collectList] at call
        split at call
        · simp at call
        · simp only [TagMask.matchesTag_matchNothing, Bool.false_eq_true, false_and,
            if_false] at call
          exact ih _ rt rt' call
  rw [reductionEdges]
  cases call : db.reduTable.get step type .matchNothing with
  | error e => rfl
  | ok rt =>
    rw [ScopedRelationMap.get] at call
    obtain ⟨range, -, fold⟩ := bind_eq_ok.mp call
    have none : rt = [] := foldlM_invariant (· = []) (fun rt node rt' _ empty push => by
      rw [collect _ _ rt rt' push, empty]) rfl fold
    rw [none]
    rfl

theorem resolveType_of_list (apart : Apart db) (reached : Reached db) {contextType' : Int}
    (valid : db.validHandle 0 contextType') {name' : String} (fits : NameFits name') {ident : Int}
    (knows : db.identMap.Knows ident name') {step start : Int} (positive : start ≠ 0)
    (query : db.typeTable.get step ⟨contextType', ident⟩ = .ok start) {items : List Int}
    (list : Overloads db.typerecMap start items) :
    ∃ (result : ResolveResult) (bound : Nat),
      (∀ fuel ≥ bound, db.resolveType fuel 0 step [contextType'] name' .matchNothing =
        .ok result) ∧ result.items = items := by
  obtain ⟨result, bound, call, exact⟩ :=
    (resolveType_exact reached 0 step [contextType'] fits .matchNothing).exact (by simpa using valid)
  refine ⟨result, bound, call, ?_⟩
  have lookup := knows.find apart.names
  have visible : db.Visible step name' contextType' start :=
    ⟨by rw [lookup]; have := knows.1; omega, positive, by rw [lookup]; exact query⟩
  have defined : result.contextType ≠ -1 := fun none =>
    exact.undefined_iff.mp none (contextType', []) ⟨by simp, trivial, start, visible⟩
  obtain ⟨⟨a, p⟩, nearest⟩ := exact.found defined
  obtain ⟨type, visible', list'⟩ := nearest.items
  have start := nearest.leads.start
  have path := nearest.leads.path
  obtain rfl : a = contextType' := List.mem_singleton.mp start
  cases p with
  | cons e p =>
    have first := path.1
    simp [reductionEdges_matchNothing] at first
  | nil =>
    have same := visible'.found.symm.trans visible.found
    rw [Except.ok.inj same] at list'
    exact list'.unique list

theorem defineType_changesOnly_iff (state : ApiReached db) (api : ApiScope scope)
    (fits : NameFits name) :
    ChangesOnly contextType name db
        (db.defineType scope contextType name constructor parameter).1 ↔
      ¬ ∃ last, db.Extends scope contextType name constructor parameter last ∧
        db.SharedBy (db.queryKey contextType name) last := by
  have reached' := state.reached.call (.defineType scope contextType name constructor parameter)
  constructor
  · rintro changes ⟨last, extends_, other, ne, start, items, shows, list, mem⟩
    have accepts := extends_.accepts
    have enters := state.apart.defineType accepts api fits
    have records := Extends.linked state.apart fits extends_
    obtain ⟨_, front, -, own, -⟩ := extends_.list
    obtain ⟨⟨record, node, unlinked⟩, -⟩ := own.last
    obtain ⟨front', rfl⟩ := list.ends node unlinked mem
    have longer : Overloads
        (db.defineType scope contextType name constructor parameter).1.typerecMap start
        (front' ++ [(last + 1 : Int), (db.typerecMap.length + 1 : Int)]) := by
      rw [records]
      exact list.link rfl
    have positive : start ≠ 0 := by
      rintro rfl
      have := list.unique .nil
      simp at this
    obtain ⟨valid, name', fits', knows⟩ := state.apart.named_key shows positive
    obtain ⟨contextType', ident⟩ := other
    have different : ¬ (contextType' = contextType ∧ name' = name) := by
      rintro ⟨rfl, rfl⟩
      exact ne (by rw [queryKey, knows.enter state.apart.names])
    have knows' := knows.mono enters.grown.names
    have valid' := TypesSound.handle_mono enters.grown.length_le valid
    obtain ⟨gets, defs⟩ := enters.queries state.apart ne
    have changed : front' ++ [(last + 1 : Int)] ≠
        front' ++ [(last + 1 : Int), (db.typerecMap.length + 1 : Int)] := by
      intro same
      have := congrArg List.length same
      simp at this
    apply changed
    rcases shows with ⟨scope', query⟩ | ⟨step, query⟩
    · have same := changes.getTypes scope' contextType' name' valid fits' different
      rw [getTypes_of_list state.apart valid fits' knows query list,
        getTypes_of_list enters.apart valid' fits' knows' ((defs scope').trans query) longer] at same
      exact (Except.ok.inj same).symm
    · have alone : ¬ (db.ReducesTo step [contextType'] .matchNothing contextType ∧
          name' = name) := by
        rintro ⟨⟨⟨a, p⟩, start, path, ends⟩, rfl⟩
        cases p with
        | cons e p =>
          have first := path.1
          simp [reductionEdges_matchNothing] at first
        | nil => exact different ⟨(List.mem_singleton.mp start).symm.trans ends, rfl⟩
      obtain ⟨bound, same⟩ := changes.resolveType 0 step [contextType'] name' .matchNothing
        (by simpa using valid) fits' alone
      obtain ⟨result, bound₁, call, items⟩ :=
        resolveType_of_list state.apart state.reached valid fits' knows positive query list
      obtain ⟨result', bound₂, call', items'⟩ := resolveType_of_list enters.apart reached' valid'
        fits' knows' positive ((gets step).trans query) longer
      have enough := same (bound + bound₁ + bound₂) (by omega)
      rw [call _ (by omega), call' _ (by omega)] at enough
      rw [← items, ← items', Except.ok.inj enough]
  · intro separate
    by_cases accepts : db.Accepts contextType constructor parameter
    · exact (state.apart.defineType accepts api fits).changesOnly state reached' fits
        (keepsLists_of_apart state.apart fits accepts separate)
    · obtain ⟨code, arg, run⟩ : ∃ code arg,
          db.defineType scope contextType name constructor parameter = (db, throw code arg) :=
        defineType_refused accepts
      rw [run]
      exact .refl contextType name db

theorem defineTypeAs_changesOnly (state : ApiReached db) (api : ApiScope scope)
    (fits : NameFits name) (type : Int) :
    ChangesOnly contextType name db (db.defineTypeAs scope contextType name type).1 := by
  by_cases checked : db.validHandle 0 contextType ∧ db.validHandle 1 type
  · refine (state.apart.defineTypeAs checked.1 api fits checked.2).changesOnly state
      (state.reached.call (.defineTypeAs scope contextType name type)) fits ?_
    intro other _ start items _ list
    have records : (db.defineTypeAs scope contextType name type).1.typerecMap = db.typerecMap := by
      simp only [TypeDatabase.defineTypeAs, checked, not_true_eq_false, if_false,
        db.identMap.get_of_fits fits]
    rw [records]
    exact list
  · rw [defineTypeAs_refused checked]
    exact .refl contextType name db

/-- In every state that is reached through the interface, a definition changes the answers for its
    own context and name only, as long as it extends no list that an alias shares. -/
theorem definitions_apart (state : ApiReached db) (api : ApiScope scope) (fits : NameFits name) :
    (∀ (contextType constructor : Int) (parameter : List TypeConstructorPair),
      ChangesOnly contextType name db
          (db.defineType scope contextType name constructor parameter).1 ↔
        ¬ ∃ last, db.Extends scope contextType name constructor parameter last ∧
          db.SharedBy (db.queryKey contextType name) last) ∧
    ∀ contextType type : Int,
      ChangesOnly contextType name db (db.defineTypeAs scope contextType name type).1 :=
  ⟨fun _ _ _ => defineType_changesOnly_iff state api fits,
    fun _ type => defineTypeAs_changesOnly state api fits type⟩

end Define

/-- A type and a second name for it. -/
def aliased : TypeDatabase :=
  empty.calls [.defineType ⟨0, 10⟩ 0 "a" 0 [], .defineTypeAs ⟨0, 10⟩ 0 "b" 1]

theorem aliased_reached : ApiReached aliased := by
  have api : ApiScope ⟨0, 10⟩ := apiScope_iff.mpr (by decide)
  have first := ApiReached.empty.call (.defineType ⟨0, 10⟩ 0 "a" 0 []) ⟨api, by decide⟩
  exact first.call (.defineTypeAs ⟨0, 10⟩ 0 "b" 1) ⟨api, by decide⟩

theorem definitions_apart_aliased :
    (∀ (contextType constructor : Int) (parameter : List TypeConstructorPair),
      ChangesOnly contextType "b" aliased
          (aliased.defineType ⟨0, 10⟩ contextType "b" constructor parameter).1 ↔
        ¬ ∃ last, aliased.Extends ⟨0, 10⟩ contextType "b" constructor parameter last ∧
          aliased.SharedBy (aliased.queryKey contextType "b") last) ∧
    ∀ contextType type : Int,
      ChangesOnly contextType "b" aliased (aliased.defineTypeAs ⟨0, 10⟩ contextType "b" type).1 :=
  definitions_apart aliased_reached (apiScope_iff.mpr (by decide)) (by decide)

/-- An overload that is defined for the second name is found under the first one. -/
theorem alias_extended :
    (aliased.getTypes ⟨0, 10⟩ 0 "a").2 = .ok [1] ∧
      ((aliased.defineType ⟨0, 10⟩ 0 "b" 0 [⟨1, 0⟩]).1.getTypes ⟨0, 10⟩ 0 "a").2 = .ok [1, 2] ∧
      ¬ ∀ db : TypeDatabase, ApiReached db →
        ∀ (contextType : Int) (parameter : List TypeConstructorPair), ChangesOnly contextType "b" db
          (db.defineType ⟨0, 10⟩ contextType "b" 0 parameter).1 := by
  have before : (aliased.getTypes ⟨0, 10⟩ 0 "a").2 = .ok [1] := by decide +kernel
  have after : ((aliased.defineType ⟨0, 10⟩ 0 "b" 0 [⟨1, 0⟩]).1.getTypes ⟨0, 10⟩ 0 "a").2 =
      .ok [1, 2] := by decide +kernel
  refine ⟨before, after, fun all => ?_⟩
  have same := (all aliased aliased_reached 0 [⟨1, 0⟩]).getTypes ⟨0, 10⟩ 0 "a" (by decide)
    (by decide) (by decide)
  rw [before, after] at same
  simp at same

end TypeDatabase

end Mewa

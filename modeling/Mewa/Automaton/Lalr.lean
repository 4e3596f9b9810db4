/- Module: Mewa/Automaton/Lalr
   digest: The merged states have every lookahead, one item a position, and kernels of their own. -/

import Mewa.Automaton.Lr1
import Mewa.Automaton.Table

set_option autoImplicit false
set_option relaxedAutoImplicit false

namespace Mewa

open Mewa.Lib

/-! Numbers and cores. -/

theorem StateAssignments.Numbered.numberOf_eq {rt : StateAssignments} (h : rt.Numbered)
    {st : TransitionState} {n : Int} (mem : (st, n) ∈ rt) : numberOf rt st = some n := by
  cases found : numberOf rt st with
  | none =>
    have absent := numberOf_eq_none.mp found
    exact absurd (List.mem_map.mpr ⟨_, mem, rfl⟩) absent
  | some m =>
    have mem' := mem_of_numberOf found
    obtain ⟨i, at_i⟩ := List.getElem?_of_mem mem
    obtain ⟨j, at_j⟩ := List.getElem?_of_mem mem'
    have states_i : (rt.map Prod.fst)[i]? = some st := by rw [List.getElem?_map, at_i]; rfl
    have states_j : (rt.map Prod.fst)[j]? = some st := by rw [List.getElem?_map, at_j]; rfl
    obtain ⟨bound_i, eq_i⟩ := List.getElem?_eq_some_iff.mp states_i
    obtain ⟨bound_j, eq_j⟩ := List.getElem?_eq_some_iff.mp states_j
    have same : i = j := (h.nodup.getElem_inj_iff).mp (eq_i.trans eq_j.symm)
    subst same
    exact congrArg (fun e => some e.2) (Option.some.inj (at_j.symm.trans at_i))

theorem mem_getLr0TransitionStateFromLr1State {ts : TransitionState} {item : TransitionItem} :
    item ∈ (getLr0TransitionStateFromLr1State ts).unpack ↔
      ∃ origin ∈ ts.unpack, item = { origin with follow := 0 } := by
  have added := foldl_iff (I := fun st : TransitionState => item ∈ st.unpack)
    (A := fun origin => item = { origin with follow := 0 })
    (f := fun rt item => rt.insert { item with follow := 0 }) (l := ts.unpack) ?_ {}
  · rw [getLr0TransitionStateFromLr1State, added]
    simp
  · intro rt origin mem
    have room := (TransitionState.mem_unpack.mp mem).1
    have fits : ({ origin with follow := 0 } : TransitionItem).Fits := by
      refine ⟨room.1, ?_⟩
      show 0 < 2 ^ 10
      omega
    rw [TransitionState.mem_unpack_insert fits, or_comm]

theorem getLr0TransitionStateFromLr1State_eq {st st0 : TransitionState}
    (core : ∀ p k, st.Core p k ↔ st0.Core p k) (zero : ∀ item ∈ st0.unpack, item.follow = 0) :
    getLr0TransitionStateFromLr1State st = st0 := by
  apply TransitionState.ext_unpack
  intro item
  rw [mem_getLr0TransitionStateFromLr1State]
  constructor
  · rintro ⟨origin, mem, rfl⟩
    obtain ⟨x, mem_x, index, pos⟩ := (core _ _).mp ⟨origin, mem, rfl, rfl⟩
    have same : ({ origin with follow := 0 } : TransitionItem) = x := by
      ext
      · exact index.symm
      · exact pos.symm
      · exact (zero x mem_x).symm
    rw [same]
    exact mem_x
  · intro mem
    obtain ⟨origin, mem_origin, index, pos⟩ := (core _ _).mpr ⟨item, mem, rfl, rfl⟩
    refine ⟨origin, mem_origin, ?_⟩
    ext
    · exact index.symm
    · exact pos.symm
    · exact zero item mem

/-! One item for every position. -/

/-- The place of the position of an item in the order of the packed items. -/
def TransitionItem.place (item : TransitionItem) : Nat := item.prodindex * 16 + item.prodpos

theorem TransitionItem.place_eq {a b : TransitionItem} (short : a.prodpos < 16)
    (short' : b.prodpos < 16) :
    a.place = b.place ↔ a.prodindex = b.prodindex ∧ a.prodpos = b.prodpos := by
  unfold place
  omega

def InOrder (items : List TransitionItem) : Prop := items.Pairwise fun a b => a.place ≤ b.place

theorem inOrder_unpack (state : TransitionState) : InOrder state.unpack := by
  unfold InOrder TransitionState.unpack
  rw [List.pairwise_map]
  refine state.packedElements.sorted.imp fun {a b} less => ?_
  rw [TransitionItem.unpack_eq, TransitionItem.unpack_eq]
  unfold TransitionItem.place
  simp only
  omega

theorem joinSamePosition_inOrder {items rest : List TransitionItem} {item item' : TransitionItem}
    {fm fm' : FollowMap} (order : InOrder (item :: items))
    (short : ∀ x ∈ item :: items, x.prodpos < 16)
    (h : joinSamePosition items item fm = .ok (fm', item', rest)) :
    item'.place = item.place ∧ item'.prodpos = item.prodpos ∧ InOrder rest ∧
      ∀ x ∈ rest, x ∈ items ∧ item.place < x.place := by
  induction items generalizing fm item with
  | nil =>
    obtain ⟨rfl, rfl, rfl⟩ : fm = fm' ∧ item = item' ∧ [] = rest := by
      simpa [joinSamePosition] using h
    exact ⟨rfl, rfl, List.Pairwise.nil, by simp⟩
  | cons item2 items ih =>
    obtain ⟨before, order2⟩ := List.pairwise_cons.mp order
    have le := before item2 List.mem_cons_self
    unfold joinSamePosition at h
    split at h
    · rename_i other
      obtain ⟨rfl, rfl, rfl⟩ : fm = fm' ∧ item = item' ∧ item2 :: items = rest := by
        simpa using h
      refine ⟨rfl, rfl, order2, fun x mem => ⟨mem, ?_⟩⟩
      have apart : item2.place ≠ item.place := by
        intro same
        obtain ⟨index, pos⟩ := (TransitionItem.place_eq (short item2 (by simp))
          (short item List.mem_cons_self)).mp same
        exact other.elim (fun ne => ne index) fun ne => ne pos
      rcases List.mem_cons.mp mem with rfl | later
      · omega
      · have le' := (List.pairwise_cons.mp order2).1 x later
        omega
    · obtain ⟨⟨fm1, joined⟩, -, h⟩ := bind_eq_ok.mp h
      have order1 : InOrder ({ item with follow := joined } :: items) :=
        List.pairwise_cons.mpr ⟨fun x mem => before x (List.mem_cons_of_mem item2 mem),
          (List.pairwise_cons.mp order2).2⟩
      have short1 : ∀ x ∈ { item with follow := joined } :: items, x.prodpos < 16 := by
        intro x mem
        rcases List.mem_cons.mp mem with rfl | later
        · exact short item List.mem_cons_self
        · exact short x (by simp [later])
      obtain ⟨place_eq, pos_eq, order', later⟩ := ih order1 short1 h
      refine ⟨place_eq, pos_eq, order', fun x mem => ?_⟩
      obtain ⟨mem', less⟩ := later x mem
      exact ⟨List.mem_cons_of_mem item2 mem', less⟩

/-- No position is twice in a state. -/
def TransitionState.Single (state : TransitionState) : Prop :=
  ∀ a ∈ state.unpack, ∀ b ∈ state.unpack, a.place = b.place → a = b

theorem mergeLoop_single {fuel : Nat} {items : List TransitionItem} {fm fm' : FollowMap}
    {state state' : TransitionState} (order : InOrder items)
    (short : ∀ x ∈ items, x.prodpos < 16)
    (before : ∀ a ∈ state.unpack, ∀ x ∈ items, a.place < x.place) (single : state.Single)
    {j : Joining} (ok : j.Ok fm) (known : j.KnownItems fm items)
    (room : ∀ x ∈ items, x.Fits)
    (h : mergeLoop fuel items fm state = .ok (fm', state')) : state'.Single := by
  induction fuel generalizing items fm state with
  | zero =>
    cases items with
    | cons item items => simp [mergeLoop] at h
    | nil =>
      obtain ⟨rfl, rfl⟩ : fm = fm' ∧ state = state' := by simpa [mergeLoop] using h
      exact single
  | succ fuel ih =>
    cases items with
    | nil =>
      obtain ⟨rfl, rfl⟩ : fm = fm' ∧ state = state' := by simpa [mergeLoop] using h
      exact single
    | cons item items =>
      unfold mergeLoop at h
      obtain ⟨⟨fm1, item1, rest⟩, joined, h⟩ := bind_eq_ok.mp h
      obtain ⟨place_eq, pos_eq, order', later⟩ := joinSamePosition_inOrder order short joined
      have knownRest : j.KnownItems fm items :=
        fun x mem => known x (List.mem_cons_of_mem item mem)
      have group := Joining.joinSamePosition_spec ok (known item List.mem_cons_self) knownRest
        (room item List.mem_cons_self).2 joined
      have fits1 : item1.Fits := by
        refine ⟨?_, group.room⟩
        rw [pos_eq]
        exact (room item List.mem_cons_self).1
      have members {x : TransitionItem} :
          x ∈ (state.insert item1).unpack ↔ x = item1 ∨ x ∈ state.unpack :=
        TransitionState.mem_unpack_insert fits1
      refine ih order' (fun x mem => short x (by simp [(later x mem).1])) ?_ ?_ group.ok
        (fun x mem => group.stable.knownItems knownRest x (later x mem).1)
        (fun x mem => room x (by simp [(later x mem).1])) h
      · intro a mem x mem_x
        have less := (later x mem_x).2
        rcases members.mp mem with rfl | old
        · omega
        · have less' := before a old item List.mem_cons_self
          omega
      · intro a mem b mem' same
        rcases members.mp mem with rfl | old
        · rcases members.mp mem' with rfl | old'
          · rfl
          · have less := before b old' item List.mem_cons_self
            omega
        · rcases members.mp mem' with rfl | old'
          · have less := before a old item List.mem_cons_self
            omega
          · exact single a old b old' same

/-! The union of the states with one core. -/

def Joining.terminal (prodlist : List ProductionDef) (t : Int) : Joining where
  Ok fm := fm.Usable prodlist
  Known := FollowMap.Known
  Has fm handle := fm.Has handle t
  join := by
    intro fm fm' h1 h2 handle usable known1 known2 joined
    obtain ⟨usable', le, known, has⟩ := (usable.join known1 known2).result _ joined
    exact ⟨usable', usable'.room known, known, has t,
      fun h0 known0 => ⟨le.known known0, le.has_iff known0⟩⟩

section Merging

variable {prodlist : List ProductionDef} {fm fm' : FollowMap}

def HandlesKnown (fm : FollowMap) (items : List TransitionItem) : Prop :=
  ∀ item ∈ items, fm.Known item.follow

theorem joinSamePosition_fails {items : List TransitionItem} {item : TransitionItem}
    (usable : fm.Usable prodlist) (known : fm.Known item.follow)
    (knownItems : HandlesKnown fm items) :
    FailsWith (· = FollowMap.tooManySets) (joinSamePosition items item fm) := by
  induction items generalizing fm item with
  | nil => exact .ok _
  | cons item2 items ih =>
    unfold joinSamePosition
    split
    · exact .ok _
    · have union := usable.join (knownItems item2 List.mem_cons_self) known
      apply union.toFailsWith.bind
      rintro ⟨fm1, joined⟩ join
      obtain ⟨usable1, le, known1, -⟩ := union.result _ join
      exact ih usable1 known1
        fun x mem => le.known (knownItems x (List.mem_cons_of_mem item2 mem))

theorem mergeLoop_fails {fuel : Nat} {items : List TransitionItem} {state : TransitionState}
    (usable : fm.Usable prodlist) (known : HandlesKnown fm items)
    (room : ∀ item ∈ items, item.Fits) (enough : items.length ≤ fuel) :
    FailsWith (· = FollowMap.tooManySets) (mergeLoop fuel items fm state) := by
  induction fuel generalizing items fm state with
  | zero =>
    cases items with
    | cons item items => simp at enough
    | nil => exact .ok _
  | succ fuel ih =>
    cases items with
    | nil => exact .ok _
    | cons item items =>
      have known_item := known item List.mem_cons_self
      have known_rest : HandlesKnown fm items :=
        fun x mem => known x (List.mem_cons_of_mem item mem)
      unfold mergeLoop
      apply (joinSamePosition_fails usable known_item known_rest).bind
      rintro ⟨fm1, item1, rest⟩ joined
      have group := Joining.joinSamePosition_spec (j := .terminal prodlist 0) usable known_item
        known_rest (room item List.mem_cons_self).2 joined
      have length : rest.length ≤ items.length := group.length
      have subset : rest ⊆ items := group.subset
      apply ih group.ok (fun x mem => (group.stable _ (known_rest x (subset mem))).1)
        (fun x mem => room x (List.mem_cons_of_mem item (subset mem)))
      rw [List.length_cons] at enough
      omega

theorem joinLr1TransitionStates_fails {s1 s2 : TransitionState} (usable : fm.Usable prodlist)
    (known1 : HandlesKnown fm s1.unpack) (known2 : HandlesKnown fm s2.unpack) :
    FailsWith (· = FollowMap.tooManySets) (joinLr1TransitionStates fm s1 s2) := by
  apply mergeLoop_fails usable _ (fun item mem => (TransitionState.mem_unpack.mp mem).1)
    (Nat.le_refl _)
  intro item mem
  rcases TransitionState.mem_unpack_join.mp mem with left | right
  · exact known1 item left
  · exact known2 item right

theorem joinLr1TransitionStates_single {s1 s2 st : TransitionState} (usable : fm.Usable prodlist)
    (known1 : HandlesKnown fm s1.unpack) (known2 : HandlesKnown fm s2.unpack)
    (h : joinLr1TransitionStates fm s1 s2 = .ok (fm', st)) : st.Single := by
  have room : ∀ item ∈ (s1.join s2).unpack, item.Fits :=
    fun item mem => (TransitionState.mem_unpack.mp mem).1
  refine mergeLoop_single (j := .terminal prodlist 0) (inOrder_unpack _)
    (fun item mem => (room item mem).1) (by simp) (by simp [TransitionState.Single]) usable ?_ room h
  intro item mem
  rcases TransitionState.mem_unpack_join.mp mem with left | right
  · exact known1 item left
  · exact known2 item right

/-- The merged states so far have handles in use and no position twice. -/
structure MergedStates (fm : FollowMap) (states : SortedMap Int TransitionState) : Prop where
  known : ∀ n st, states.find n = some st → HandlesKnown fm st.unpack
  single : ∀ n st, states.find n = some st → st.Single

variable {lr0statemap lr1statemap : StateAssignments} {states : SortedMap Int TransitionState}

theorem mergeLr1State_yields {st : TransitionState × Int} {n : Int} (usable : fm.Usable prodlist)
    (merged : MergedStates fm states) (known : HandlesKnown fm st.1.unpack)
    (number : numberOf lr0statemap (getLr0TransitionStateFromLr1State st.1) = some n) :
    Yields (· = FollowMap.tooManySets)
      (fun ctx => ctx.1.Usable prodlist ∧ (∀ handle, fm.Known handle → ctx.1.Known handle) ∧
        MergedStates ctx.1 ctx.2)
      (mergeLr1State lr0statemap (fm, states) st) := by
  have known_old : HandlesKnown fm ((states.find n).getD {}).unpack := by
    cases found : states.find n with
    | none => simp [HandlesKnown]
    | some old => exact merged.known n old found
  unfold mergeLr1State
  simp only [number]
  have fails := joinLr1TransitionStates_fails usable known_old known
  refine ⟨fails.bind fun _ _ => .ok _, fun ctx done => ?_⟩
  obtain ⟨⟨fm1, joined⟩, join, done⟩ := bind_eq_ok.mp done
  obtain rfl := Except.ok.inj done
  obtain ⟨ok1, stable, known1, -⟩ := Joining.joinLr1TransitionStates_spec
    (j := .terminal prodlist 0) usable known_old known join
  have single := joinLr1TransitionStates_single usable known_old known join
  refine ⟨ok1, fun handle here => (stable handle here).1, fun m st' found => ?_,
    fun m st' found => ?_⟩
  · rw [SortedMap.find_set] at found
    split at found
    · obtain rfl := Option.some.inj found
      exact known1
    · exact fun item mem => (stable _ (merged.known m st' found item mem)).1
  · rw [SortedMap.find_set] at found
    split at found
    · obtain rfl := Option.some.inj found
      exact single
    · exact merged.single m st' found

theorem calculateLalr1StateMap_yields {order : HashOrder (TransitionState × Int)}
    (usable : fm.Usable prodlist)
    (known : ∀ st ∈ lr1statemap, HandlesKnown fm st.1.unpack)
    (numbered : ∀ st ∈ lr1statemap,
      ∃ n, numberOf lr0statemap (getLr0TransitionStateFromLr1State st.1) = some n) :
    Yields (· = FollowMap.tooManySets)
      (fun ctx => ctx.1.Usable prodlist ∧ MergedStates ctx.1 ctx.2)
      (calculateLalr1StateMap order lr0statemap lr1statemap fm) := by
  have mem_iff : ∀ st, st ∈ order.visit lr1statemap ↔ st ∈ lr1statemap :=
    fun st => (order.perm lr1statemap).mem_iff
  have along : Yields (· = FollowMap.tooManySets)
      (fun ctx : FollowMap × SortedMap Int TransitionState => ctx.1.Usable prodlist ∧
        (∀ handle, fm.Known handle → ctx.1.Known handle) ∧ MergedStates ctx.1 ctx.2)
      (calculateLalr1StateMap order lr0statemap lr1statemap fm) := by
    apply Yields.foldlM (fun _ (ctx : FollowMap × SortedMap Int TransitionState) =>
      ctx.1.Usable prodlist ∧ (∀ handle, fm.Known handle → ctx.1.Known handle) ∧
        MergedStates ctx.1 ctx.2)
    · intro past st ⟨fm1, states1⟩ begins ⟨usable1, kept, merged⟩
      have mem : st ∈ lr1statemap := (mem_iff st).mp (begins.subset (by simp))
      obtain ⟨n, number⟩ := numbered st mem
      apply (mergeLr1State_yields usable1 merged (fun item here => kept _ (known st mem item here))
        number).mono
      intro ctx _ ⟨usable2, kept2, merged2⟩
      exact ⟨usable2, fun handle here => kept2 handle (kept handle here), merged2⟩
    · exact ⟨usable, fun _ here => here, ⟨by simp, by simp⟩⟩
  apply along.mono
  rintro ctx - ⟨usable', -, merged⟩
  exact ⟨usable', merged⟩

end Merging

/-! The kernels. -/

theorem mem_kernelKey {state : TransitionState} {pkg : Nat} :
    pkg ∈ kernelKey state ↔ ∃ item ∈ state.unpack, 0 < item.prodpos ∧
      pkg = ({ item with follow := 0 } : TransitionItem).packed := by
  unfold kernelKey
  rw [SortedSet.mem_ofList, List.mem_map]
  constructor
  · rintro ⟨item, mem, rfl⟩
    obtain ⟨mem, positive⟩ := List.mem_filter.mp mem
    exact ⟨item, mem, of_decide_eq_true positive, rfl⟩
  · rintro ⟨item, mem, positive, rfl⟩
    exact ⟨item, List.mem_filter.mpr ⟨mem, decide_eq_true positive⟩, rfl⟩

theorem packed_mem_kernelKey {state : TransitionState} {p k : Nat} (short : k + 1 < 16) :
    (⟨p, k + 1, 0⟩ : TransitionItem).packed ∈ kernelKey state ↔ state.Core p (k + 1) := by
  have zero : 0 < Limits.MaxTerminal := by
    show 0 < 2 ^ 10
    omega
  rw [mem_kernelKey]
  constructor
  · rintro ⟨item, mem, -, same⟩
    have fits := (TransitionState.mem_unpack.mp mem).1
    have unpacked := congrArg TransitionItem.unpack same
    have cleared : ({ item with follow := 0 } : TransitionItem).Fits := ⟨fits.1, zero⟩
    rw [TransitionItem.unpack_packed ⟨short, zero⟩,
      TransitionItem.unpack_packed cleared] at unpacked
    simp only [TransitionItem.mk.injEq, and_true] at unpacked
    exact ⟨item, mem, unpacked.1.symm, unpacked.2.symm⟩
  · rintro ⟨item, mem, rfl, pos⟩
    refine ⟨item, mem, by omega, ?_⟩
    rw [← pos]

theorem calculateLalr1TransitionItemGotoMap_yields {states : SortedMap Int TransitionState}
    (apart : (states.entries.map fun e => kernelKey e.2).Nodup) :
    Yields (fun _ => False)
      (fun gotoMap : TransitionItemGotoMap => ∀ key n, gotoNumber gotoMap key = some n ↔
        ∃ st, states.find n = some st ∧ kernelKey st = key)
      (calculateLalr1TransitionItemGotoMap states) := by
  have along : Yields (fun _ => False)
      (fun gotoMap : TransitionItemGotoMap =>
        gotoMap = states.entries.map fun e => (kernelKey e.2, e.1))
      (calculateLalr1TransitionItemGotoMap states) := by
    apply Yields.foldlM (fun (past : List (Int × TransitionState))
      (gotoMap : TransitionItemGotoMap) => gotoMap = past.map fun e => (kernelKey e.2, e.1))
    · rintro past e gotoMap begins rfl
      have fresh : gotoNumber (past.map fun e => (kernelKey e.2, e.1)) (kernelKey e.2) = none := by
        unfold gotoNumber
        rw [Option.map_eq_none_iff, List.find?_eq_none]
        intro x mem same
        obtain ⟨e', mem', rfl⟩ := List.mem_map.mp mem
        obtain ⟨rest, whole⟩ := begins
        rw [← whole, List.map_append, List.nodup_append] at apart
        obtain ⟨first, -, -⟩ := apart
        rw [List.map_append, List.nodup_append] at first
        exact first.2.2 (kernelKey e'.2) (List.mem_map.mpr ⟨e', mem', rfl⟩) (kernelKey e.2)
          (by simp) (of_decide_eq_true same)
      unfold insertKernel
      rw [fresh]
      exact Yields.ok_iff.mpr (by simp)
    · rfl
  apply along.mono
  rintro gotoMap - rfl key n
  have keys : ((states.entries.map fun e => (kernelKey e.2, e.1)).map Prod.fst).Nodup := by
    rw [List.map_map]
    exact apart
  constructor
  · intro found
    unfold gotoNumber at found
    obtain ⟨x, here, rfl⟩ := Option.map_eq_some_iff.mp found
    have same : x.1 = key := by simpa using List.find?_some here
    obtain ⟨e, mem, rfl⟩ := List.mem_map.mp (List.mem_of_find?_eq_some here)
    exact ⟨e.2, SortedMap.find_eq_some.mpr mem, same⟩
  · rintro ⟨st, found, rfl⟩
    have mem : (kernelKey st, n) ∈ states.entries.map fun e => (kernelKey e.2, e.1) :=
      List.mem_map.mpr ⟨(n, st), SortedMap.find_eq_some.mp found, rfl⟩
    unfold gotoNumber
    cases here : (states.entries.map fun e => (kernelKey e.2, e.1)).find?
        fun e => e.1 = kernelKey st with
    | none => exact absurd (List.find?_eq_none.mp here _ mem) (by simp)
    | some x =>
      have same : x.1 = kernelKey st := by simpa using List.find?_some here
      have mem' := List.mem_of_find?_eq_some here
      have equal : x = (kernelKey st, n) :=
        List.inj_on_of_nodup_map keys mem' mem same
      rw [equal]
      rfl

/-! The states of a build. -/

def startFollowMap (fuel : Nat) (prodlist : List ProductionDef) : Except Failure FollowMap := do
  let nullable ← getNullableNonterminalSet fuel prodlist
  let firstMap ← getNonTerminalFirstSetMap fuel prodlist nullable
  FollowMap.init prodlist firstMap nullable

/-- There is room for the handles of the sets that a build starts with. -/
def FollowSetsFit (prodlist : List ProductionDef) : Prop :=
  ∀ fuel fm, startFollowMap fuel prodlist = .ok fm →
    fm.followMap.inv.length ≤ Limits.MaxTerminal

section States

variable {prodlist : List ProductionDef} {lexer : Lexer} (h : WellFormed prodlist lexer)

theorem Promise.Walked.exists_state {σ : Type} {closure : CalculateClosure σ}
    {P : Failure → Prop} {pr : Promise prodlist closure (Symbol Int Int) P} {s s' : σ}
    {rt : StateAssignments} (walked : pr.Walked s s' rt) (label : pr.label = symbolOf)
    (represents : ∀ {γ st}, pr.Good s' γ st →
      st.Represents ((productionsOf prodlist h).Item γ)) {γ : List (Symbol Int Int)}
    (viable : ∃ p k, (productionsOf prodlist h).Item γ p k) :
    ∃ st ∈ rt.map Prod.fst, pr.Good s' γ st := by
  induction γ using List.reverseRecOn with
  | nil =>
    obtain ⟨st, first, good⟩ := walked.start
    exact ⟨st, List.mem_map.mpr ⟨_, first, rfl⟩, good⟩
  | append_singleton γ x ih =>
    obtain ⟨p, k, item, next⟩ := Productions.exists_item_before viable
    obtain ⟨st, mem, good⟩ := ih ⟨p, k, item⟩
    obtain ⟨origin, mem_origin, index, rfl⟩ := ((represents good).core p k).mpr item
    have node := nodeOf_eq h index
    rw [next] at node
    obtain ⟨gto, some_node, rfl⟩ := Option.map_eq_some_iff.mp node
    have goto_node := mem_collectGotoNodes.mpr ⟨origin, mem_origin, some_node⟩
    obtain ⟨st', mem', good'⟩ := walked.visited st mem γ good gto goto_node
    rw [label] at good'
    exact ⟨st', mem', good'⟩

theorem FollowMap.Sound.joinsFit {T : Set Int} {fm : FollowMap} (sound : fm.Sound T) :
    fm.JoinsFit :=
  fun key handle found => (sound.joins key.1 key.2 handle found).1

theorem TransitionState.Represents.core_iff {st st' : TransitionState}
    {I : Fin prodlist.length → Nat → Prop} (rep : st.Represents I) (rep' : st'.Represents I)
    (p k : Nat) : st.Core p k ↔ st'.Core p k := by
  constructor
  · rintro ⟨item, mem, rfl, rfl⟩
    have here := (rep.core ⟨_, rep.bound item mem⟩ item.prodpos).mp ⟨item, mem, rfl, rfl⟩
    exact (rep'.core _ _).mpr here
  · rintro ⟨item, mem, rfl, rfl⟩
    have here := (rep'.core ⟨_, rep'.bound item mem⟩ item.prodpos).mp ⟨item, mem, rfl, rfl⟩
    exact (rep.core _ _).mpr here

/-- The merged states: every viable prefix has one, its items are those of the prefix, and they have
    all terminals that may follow them. -/
structure LalrStates.Exact (lalr : LalrStates) : Prop where
  usable : lalr.fm.Usable prodlist
  looks : ∀ {n st γ}, lalr.states.find n = some st →
    st.Represents ((productionsOf prodlist h).Item γ) → Lr1State h lalr.fm γ st
  exists_prefix : ∀ {n st}, lalr.states.find n = some st → ∃ γ, Lr1State h lalr.fm γ st
  exists_state : ∀ {γ}, (∃ p k, (productionsOf prodlist h).Item γ p k) →
    ∃ n st, lalr.states.find n = some st ∧ Lr1State h lalr.fm γ st
  unique : ∀ {n m st st' γ}, lalr.states.find n = some st → lalr.states.find m = some st' →
    st.Represents ((productionsOf prodlist h).Item γ) →
    st'.Represents ((productionsOf prodlist h).Item γ) → n = m
  first : ∃ st, lalr.states.find 1 = some st ∧ Lr1State h lalr.fm [] st
  number : ∀ {n st}, lalr.states.find n = some st → 1 ≤ n ∧ n < (Limits.MaxState : Nat)
  single : ∀ {n st}, lalr.states.find n = some st → st.Single
  kernel : ∀ key n, gotoNumber lalr.gotoMap key = some n ↔
    ∃ st, lalr.states.find n = some st ∧ kernelKey st = key

variable {h} {short : ShortRules prodlist} {fuel : Nat} {rt0 rt1 : StateAssignments}
  {fm0 fm1 fm : FollowMap} {states : SortedMap Int TransitionState}

theorem Lr0State.eq_of_core {γ γ' : List (Symbol Int Int)} {st st' : TransitionState}
    (lr0 : Lr0State h γ st) (lr0' : Lr0State h γ' st') (core : ∀ p k, st.Core p k ↔ st'.Core p k) :
    st = st' := by
  apply TransitionState.ext_unpack
  have half {γ γ' : List (Symbol Int Int)} {st st' : TransitionState} (lr0 : Lr0State h γ st)
      (lr0' : Lr0State h γ' st') (core : ∀ p k, st.Core p k → st'.Core p k)
      (item : TransitionItem) (mem : item ∈ st.unpack) : item ∈ st'.unpack := by
    obtain ⟨item', mem', index, pos⟩ := core _ _ ⟨item, mem, rfl, rfl⟩
    have same : item = item' := by
      ext
      · exact index.symm
      · exact pos.symm
      · rw [lr0.follow item mem, lr0'.follow item' mem']
    rw [same]
    exact mem'
  intro item
  exact ⟨half lr0 lr0' (fun p k => (core p k).mp) item,
    half lr0' lr0 (fun p k => (core p k).mpr) item⟩

theorem core_getLr0TransitionStateFromLr1State {st : TransitionState} {p k : Nat} :
    (getLr0TransitionStateFromLr1State st).Core p k ↔ st.Core p k := by
  unfold TransitionState.Core
  simp only [mem_getLr0TransitionStateFromLr1State]
  constructor
  · rintro ⟨_, ⟨origin, mem, rfl⟩, index, pos⟩
    exact ⟨origin, mem, index, pos⟩
  · rintro ⟨origin, mem, index, pos⟩
    exact ⟨_, ⟨origin, mem, rfl⟩, index, pos⟩

/-- The states found without and with sets of terminals, and what the second ones are merged to. -/
structure Explorations (h : WellFormed prodlist lexer) (short : ShortRules prodlist) (fuel : Nat)
    (order : HashOrder (TransitionState × Int)) (rt0 rt1 : StateAssignments)
    (fm0 fm1 fm : FollowMap) (states : SortedMap Int TransitionState) : Prop where
  walked0 : (lr0Promise h short fuel).Walked () () rt0
  walked1 : (lr1Promise h short fuel).Walked fm0 fm1 rt1
  merge : calculateLalr1StateMap order rt0 rt1 fm1 = .ok (fm, states)

/-- A state with lookaheads has the number of the state without sets that has its items. -/
theorem number_of_represents (walked0 : (lr0Promise h short fuel).Walked () () rt0)
    {γ : List (Symbol Int Int)} {st : TransitionState}
    (viable : ∃ p k, (productionsOf prodlist h).Item γ p k)
    (rep : st.Represents ((productionsOf prodlist h).Item γ)) :
    ∃ st0 n, (st0, n) ∈ rt0 ∧ Lr0State h γ st0 ∧
      numberOf rt0 (getLr0TransitionStateFromLr1State st) = some n := by
  obtain ⟨st0, there, good⟩ := walked0.exists_state h rfl (fun good => good.represents) viable
  obtain ⟨⟨_, n⟩, mem, rfl⟩ := List.mem_map.mp there
  refine ⟨_, n, mem, good, ?_⟩
  rw [getLr0TransitionStateFromLr1State_eq (rep.core_iff good.represents) good.follow]
  exact walked0.numbered.numberOf_eq mem

section Explored

variable {order : HashOrder (TransitionState × Int)}
  (ex : Explorations h short fuel order rt0 rt1 fm0 fm1 fm states)
include ex

theorem Explorations.lr1State {st1 : TransitionState × Int} (mem : st1 ∈ rt1) :
    ∃ γ, Lr1State h fm1 γ st1.1 := ex.walked1.good st1.1 (List.mem_map.mpr ⟨st1, mem, rfl⟩)

theorem Explorations.known {st1 : TransitionState × Int} (mem : st1 ∈ rt1) :
    HandlesKnown fm1 st1.1.unpack := by
  obtain ⟨γ, lr1⟩ := ex.lr1State mem
  exact lr1.known

theorem Explorations.numbered {st1 : TransitionState × Int} (mem : st1 ∈ rt1) :
    ∃ n, numberOf rt0 (getLr0TransitionStateFromLr1State st1.1) = some n := by
  obtain ⟨γ, lr1⟩ := ex.lr1State mem
  obtain ⟨_, n, -, -, number⟩ := number_of_represents ex.walked0 lr1.viable lr1.represents
  exact ⟨n, number⟩

theorem Explorations.merged : fm.Usable prodlist ∧ MergedStates fm states :=
  (calculateLalr1StateMap_yields ex.walked1.ok.1 (fun _ mem => ex.known mem)
    fun _ mem => ex.numbered mem).result _ ex.merge

theorem Explorations.mergedTerminal (t : Int) :
    (Joining.terminal prodlist t).Merged rt0 rt1 fm1 fm SortedMap.empty states :=
  Joining.calculateLalr1StateMap_spec (j := .terminal prodlist t) ex.walked1.ok.1
    (fun _ mem => ex.known mem) ex.merge

theorem Explorations.mergedPositions :
    Joining.positions.Merged rt0 rt1 fm1 fm SortedMap.empty states :=
  Joining.calculateLalr1StateMap_spec (j := .positions) ex.walked1.ok.1.sound.joinsFit
    (fun _ _ _ _ => trivial) ex.merge

/-- A merged state has the number of a state without sets that has its items. -/
theorem Explorations.lr0 {n : Int} {st : TransitionState} (found : states.find n = some st) :
    ∃ st0 γ, (st0, n) ∈ rt0 ∧ Lr0State h γ st0 ∧
      (∃ p k, (productionsOf prodlist h).Item γ p k) ∧
      st.Represents ((productionsOf prodlist h).Item γ) := by
  obtain ⟨st1, mem, number⟩ : ∃ st1 ∈ rt1,
      numberOf rt0 (getLr0TransitionStateFromLr1State st1.1) = some n := by
    rcases (ex.mergedPositions.find_iff n).mp ⟨st, found⟩ with ⟨_, none_there⟩ | there
    · simp at none_there
    · exact there
  obtain ⟨γ, lr1⟩ := ex.lr1State mem
  obtain ⟨st0, m, mem0, lr0, number0⟩ := number_of_represents ex.walked0 lr1.viable lr1.represents
  obtain rfl : m = n := Option.some.inj (number0.symm.trans number)
  have core (p k : Nat) : st.Core p k ↔ st0.Core p k := by
    have at_iff := ex.mergedPositions.at_iff m p k
    unfold Joining.AtState Joining.At at at_iff
    simp only [found, Option.some.injEq, exists_eq_left', SortedMap.find_empty, reduceCtorEq,
      false_and, exists_false, false_or] at at_iff
    constructor
    · rintro ⟨item, there, index, pos⟩
      obtain ⟨st2, mem2, number2, item2, there2, index2, pos2, -⟩ :=
        at_iff.mp ⟨item, there, index, pos, trivial⟩
      have same := ex.walked0.numbered.state_unique (mem_of_numberOf number2) mem0
      rw [← same, core_getLr0TransitionStateFromLr1State]
      exact ⟨item2, there2, index2, pos2⟩
    · intro here
      have same := ex.walked0.numbered.state_unique (mem_of_numberOf number) mem0
      rw [← same, core_getLr0TransitionStateFromLr1State] at here
      obtain ⟨item, there, index, pos⟩ := here
      obtain ⟨item', there', index', pos', -⟩ :=
        at_iff.mpr ⟨st1, mem, number, item, there, index, pos, trivial⟩
      exact ⟨item', there', index', pos'⟩
  refine ⟨st0, γ, mem0, lr0, lr1.viable, fun item there => ?_, fun p k => ?_⟩
  · obtain ⟨item0, there0, index, -⟩ := (core _ _).mp ⟨item, there, rfl, rfl⟩
    rw [← index]
    exact lr0.represents.bound item0 there0
  · rw [core, lr0.represents.core]

theorem Explorations.unique {n m : Int} {st st' : TransitionState} {γ : List (Symbol Int Int)}
    (found : states.find n = some st) (found' : states.find m = some st')
    (rep : st.Represents ((productionsOf prodlist h).Item γ))
    (rep' : st'.Represents ((productionsOf prodlist h).Item γ)) : n = m := by
  obtain ⟨st0, δ, mem, lr0, -, rep0⟩ := ex.lr0 found
  obtain ⟨st0', δ', mem', lr0', -, rep0'⟩ := ex.lr0 found'
  have same : st0 = st0' := lr0.eq_of_core lr0' fun p k => by
    rw [lr0.represents.core_iff rep0, rep.core_iff rep', rep0'.core_iff lr0'.represents]
  subst same
  have number := ex.walked0.numbered.numberOf_eq mem
  exact Option.some.inj (number.symm.trans (ex.walked0.numbered.numberOf_eq mem'))

theorem Explorations.looks {n : Int} {st : TransitionState} {γ : List (Symbol Int Int)}
    (found : states.find n = some st) (rep : st.Represents ((productionsOf prodlist h).Item γ)) :
    Lr1State h fm γ st := by
  obtain ⟨st0, δ, mem0, lr0, ⟨p, k, item⟩, rep0⟩ := ex.lr0 found
  have viable : ∃ p k, (productionsOf prodlist h).Item γ p k :=
    ⟨p, k, (rep.core p k).mp ((rep0.core p k).mpr item)⟩
  obtain ⟨-, merged⟩ := ex.merged
  have looks (p : Fin prodlist.length) (k : Nat) (a : Option Int)
      (look : (productionsOf prodlist h).ItemLook γ p k a) : ∃ item ∈ st.unpack,
        item.prodindex = p ∧ item.prodpos = k ∧ fm.Has item.follow (a.getD 0) := by
    obtain ⟨_, there, good⟩ := ex.walked1.exists_state h rfl (fun good => good.represents) viable
    obtain ⟨st1, mem1, rfl⟩ := List.mem_map.mp there
    obtain ⟨st0', m, mem0', lr0', number⟩ := number_of_represents ex.walked0 viable good.represents
    -- the state with the items of the prefix is merged into this one
    obtain rfl : st0' = st0 := lr0'.eq_of_core lr0 fun p k => by
      rw [lr0'.represents.core_iff rep, rep0.core_iff lr0.represents]
    obtain rfl : m = n := Option.some.inj ((ex.walked0.numbered.numberOf_eq mem0').symm.trans
      (ex.walked0.numbered.numberOf_eq mem0))
    obtain ⟨item, mem, index, pos, has⟩ := good.looks p k a look
    obtain ⟨st', found', item', mem', index', pos', has'⟩ :=
      ((ex.mergedTerminal (a.getD 0)).at_iff m p k).mpr
        (Or.inr ⟨st1, mem1, number, item, mem, index, pos, has⟩)
    obtain rfl := Option.some.inj (found.symm.trans found')
    exact ⟨item', mem', index', pos', has'⟩
  refine ⟨viable, rep, merged.known n st found, looks, fun item mem index t => ?_⟩
  constructor
  · intro has
    rcases ((ex.mergedTerminal t).at_iff n item.prodindex item.prodpos).mp
      ⟨st, found, item, mem, rfl, rfl, has⟩ with
      ⟨_, none_there, -⟩ | ⟨st1, mem1, -, item1, there, index1, -, has1⟩
    · simp at none_there
    · obtain ⟨δ', lr1⟩ := ex.lr1State mem1
      exact (lr1.start item1 there (index1.trans index) t).mp has1
  · rintro rfl
    have item_at := (rep.core (productionsOf prodlist h).start item.prodpos).mp
      ⟨item, mem, index, rfl⟩
    obtain ⟨item', mem', index', pos', has⟩ :=
      looks _ _ _ (Productions.ItemLook.start_of_item item_at)
    have same : item' = item := by
      refine merged.single n st found item' mem' item mem ?_
      unfold TransitionItem.place
      rw [index', pos', index]
      rfl
    rw [← same]
    exact has

theorem Explorations.exists_state {γ : List (Symbol Int Int)}
    (viable : ∃ p k, (productionsOf prodlist h).Item γ p k) :
    ∃ n st st0, states.find n = some st ∧ Lr1State h fm γ st ∧ (st0, n) ∈ rt0 ∧
      Lr0State h γ st0 := by
  obtain ⟨_, there, good⟩ := ex.walked1.exists_state h rfl (fun good => good.represents) viable
  obtain ⟨st1, mem1, rfl⟩ := List.mem_map.mp there
  obtain ⟨st0, n, mem0, lr0, number⟩ := number_of_represents ex.walked0 viable good.represents
  obtain ⟨st, found⟩ := (ex.mergedPositions.find_iff n).mpr (Or.inr ⟨st1, mem1, number⟩)
  obtain ⟨st0', δ, mem0', lr0', -, rep⟩ := ex.lr0 found
  obtain rfl := ex.walked0.numbered.state_unique mem0 mem0'
  have rep' : st.Represents ((productionsOf prodlist h).Item γ) :=
    ⟨rep.bound, fun p k => by rw [rep.core_iff lr0'.represents, lr0.represents.core]⟩
  exact ⟨n, st, st0, found, ex.looks found rep', mem0, lr0⟩

theorem Explorations.first : ∃ st, states.find 1 = some st ∧ Lr1State h fm [] st := by
  obtain ⟨n, st, st0, found, lr1, mem0, lr0⟩ := ex.exists_state ⟨_, _, .start⟩
  obtain ⟨start, mem, good⟩ := ex.walked0.start
  obtain rfl : start = st0 := Lr0State.eq_of_core good lr0 fun p k =>
    good.represents.core_iff lr0.represents p k
  obtain rfl : 1 = n := Option.some.inj ((ex.walked0.numbered.numberOf_eq mem).symm.trans
    (ex.walked0.numbered.numberOf_eq mem0))
  exact ⟨st, found, lr1⟩

theorem Explorations.number {n : Int} {st : TransitionState} (found : states.find n = some st) :
    1 ≤ n ∧ n ≤ rt0.length := by
  obtain ⟨st0, _, mem, -⟩ := ex.lr0 found
  obtain ⟨i, at_index⟩ := List.getElem?_of_mem mem
  have number : n = (i : Int) + 1 := ex.walked0.numbered.number i _ at_index
  have bound := (List.getElem?_eq_some_iff.mp at_index).1
  omega

theorem Explorations.kernels_apart : (states.entries.map fun e => kernelKey e.2).Nodup := by
  have keys : (states.entries.map Prod.fst).Nodup := states.sorted.imp ne_of_lt
  have nodup : states.entries.Nodup := keys.of_map
  refine nodup.map_on ?_
  rintro ⟨n, st⟩ mem ⟨m, st'⟩ mem' same
  have found := SortedMap.find_eq_some.mpr mem
  have found' := SortedMap.find_eq_some.mpr mem'
  obtain ⟨-, γ, -, -, viable, rep⟩ := ex.lr0 found
  obtain ⟨-, γ', -, -, viable', rep'⟩ := ex.lr0 found'
  have kernels (p : Fin prodlist.length) (k : Nat) :
      (productionsOf prodlist h).Item γ p (k + 1) ↔
        (productionsOf prodlist h).Item γ' p (k + 1) := by
    rw [← rep.core, ← rep'.core]
    by_cases room : k + 1 < 16
    · rw [← packed_mem_kernelKey room, ← packed_mem_kernelKey room]
      rw [show kernelKey st = kernelKey st' from same]
    · have never (st : TransitionState) : ¬ st.Core p (k + 1) := by
        rintro ⟨item, there, -, pos⟩
        have fits : item.prodpos < 16 := (TransitionState.mem_unpack.mp there).1.1
        omega
      simp [never]
  have rep'' : st'.Represents ((productionsOf prodlist h).Item γ) :=
    ⟨rep'.bound, fun p k => by
      rw [rep'.core, Productions.item_iff_of_succ viable viable' kernels]⟩
  obtain rfl := ex.unique found found' rep rep''
  obtain rfl := Option.some.inj (found.symm.trans found')
  rfl

end Explored

def tooManyStates : Failure := .thrown ⟨.ComplexityMaxStateInGrammarDef, "", 0⟩

/-- The ways in which the calculation of the states can fail. -/
def Exhausted (e : Failure) : Prop :=
  e = .outOfFuel ∨ e = FollowMap.tooManySets ∨ e = tooManyStates

theorem startFollowMap_yields (h : WellFormed prodlist lexer) (short : ShortRules prodlist)
    (fuel : Nat) :
    Yields (· = .outOfFuel)
      (fun fm => fm.followMap.inv.length ≤ 1 + 16 * prodlist.length ∧
        (fm.followMap.inv.length ≤ Limits.MaxTerminal → fm.Usable prodlist ∧ fm.Begins h))
      (startFollowMap fuel prodlist) := by
  unfold startFollowMap
  apply (getNullableNonterminalSet_yields h.everyDefined fuel).bind
  intro nullable _ exact_nullable
  apply (getNonTerminalFirstSetMap_yields h.everyDefined exact_nullable fuel).bind
  intro firstMap _ firsts
  apply ((init_yields h.everyDefined firsts short).allow fun e no => no.elim).mono
  intro fm _ ⟨filled, few⟩
  refine ⟨few, fun fit => ⟨⟨filled.sound, fit, fun item index node => ?_⟩, filled.begins h firsts⟩⟩
  unfold nodeOf at node
  obtain ⟨prod, at_index, node⟩ := Option.bind_eq_some_iff.mp node
  exact filled.complete ⟨item.prodindex, item.prodpos⟩ prod index trivial at_index node

theorem followSetsFit_of_length (h : WellFormed prodlist lexer) (short : ShortRules prodlist)
    (few : prodlist.length < 64) : FollowSetsFit prodlist := by
  intro fuel fm calculated
  obtain ⟨bound, -⟩ := (startFollowMap_yields h short fuel).result fm calculated
  show _ ≤ 2 ^ 10
  omega

theorem calculateStates_eq (fuel : Nat) (order : HashOrder (TransitionState × Int)) :
    calculateStates fuel order prodlist = (startFollowMap fuel prodlist >>= fun fm => do
      let (_, stateAssignmentsLr0) ←
        getAutomatonStateAssignments fuel prodlist (calculateClosureLr0 fuel prodlist) ()
      let (fm, stateAssignmentsLr1) ←
        getAutomatonStateAssignments fuel prodlist (calculateClosureLr1 fuel prodlist) fm
      let (fm, lalr1States) ←
        calculateLalr1StateMap order stateAssignmentsLr0 stateAssignmentsLr1 fm
      let gotoMap ← calculateLalr1TransitionItemGotoMap lalr1States
      if stateAssignmentsLr0.length ≥ Limits.MaxState then
        Grammar.throw .ComplexityMaxStateInGrammarDef
      .ok ⟨lalr1States, fm, gotoMap⟩) := by
  unfold calculateStates startFollowMap
  simp only [bind_assoc]

/-- The calculation of the states fails only because of its limits, never because of an internal
    error or a lookup that fails, and its states are the right ones. -/
theorem calculateStates_yields (h : WellFormed prodlist lexer) (short : ShortRules prodlist)
    (fit : FollowSetsFit prodlist) (fuel : Nat) (order : HashOrder (TransitionState × Int)) :
    Yields Exhausted (LalrStates.Exact h) (calculateStates fuel order prodlist) := by
  rw [calculateStates_eq]
  apply ((startFollowMap_yields h short fuel).allow fun e out => Or.inl out).bind
  rintro fm0 calculated ⟨-, usable_of_fit⟩
  obtain ⟨usable0, begins0⟩ := usable_of_fit (fit fuel fm0 calculated)
  apply (((lr0Promise h short fuel).assignments_yields () trivial).allow fun e allowed =>
    Or.inl (allowed.elim id id)).bind
  intro ⟨_, rt0⟩ _ walked0
  apply (((lr1Promise h short fuel).assignments_yields fm0 ⟨usable0, begins0⟩).allow fun e allowed =>
      allowed.elim Or.inl fun rest => rest.elim Or.inl fun many => Or.inr (Or.inl many)).bind
  intro ⟨fm1, rt1⟩ _ walked1
  have merging : Yields Exhausted (fun _ => True) (calculateLalr1StateMap order rt0 rt1 fm1) := by
    have known : ∀ st ∈ rt1, HandlesKnown fm1 st.1.unpack := by
      intro st mem
      obtain ⟨γ, lr1⟩ := walked1.good st.1 (List.mem_map.mpr ⟨st, mem, rfl⟩)
      exact lr1.known
    have numbered : ∀ st ∈ rt1,
        ∃ n, numberOf rt0 (getLr0TransitionStateFromLr1State st.1) = some n := by
      intro st mem
      obtain ⟨γ, lr1⟩ := walked1.good st.1 (List.mem_map.mpr ⟨st, mem, rfl⟩)
      obtain ⟨_, n, -, -, number⟩ := number_of_represents walked0 lr1.viable lr1.represents
      exact ⟨n, number⟩
    apply ((calculateLalr1StateMap_yields walked1.ok.1 known numbered).allow
      fun e many => Or.inr (Or.inl many)).mono
    intro _ _ _
    trivial
  apply merging.bind
  intro ⟨fm, states⟩ merge _
  have ex : Explorations h short fuel order rt0 rt1 fm0 fm1 fm states := ⟨walked0, walked1, merge⟩
  apply ((calculateLalr1TransitionItemGotoMap_yields ex.kernels_apart).allow fun e no => no.elim).bind
  intro gotoMap _ kernels
  simp only
  split
  · exact Yields.error_iff.mpr (Or.inr (Or.inr rfl))
  · rename_i few
    refine Yields.ok_iff.mpr ⟨ex.merged.1, ex.looks, fun found => ?_, fun viable => ?_, ex.unique,
      ex.first, fun found => ?_, fun found => ex.merged.2.single _ _ found, kernels⟩
    · obtain ⟨-, γ, -, -, -, rep⟩ := ex.lr0 found
      exact ⟨γ, ex.looks found rep⟩
    · obtain ⟨n, st, -, found, lr1, -⟩ := ex.exists_state viable
      exact ⟨n, st, found, lr1⟩
    · obtain ⟨low, high⟩ := ex.number found
      refine ⟨low, ?_⟩
      omega

end States

end Mewa

/- Module: Mewa/Automaton/Merge
   digest: The merge of states keeps every position with all terminals that may follow it. -/

import Mewa.Automaton.Explore
import Mewa.Automaton.Rules

set_option autoImplicit false
set_option relaxedAutoImplicit false

namespace Mewa

open Mewa.Lib

/-- A property of handles that the union of two sets has if one of them has it. The invariant of
    the sets and the handles in use are parts of it. -/
structure Joining where
  Ok : FollowMap → Prop
  Known : FollowMap → Nat → Prop
  Has : FollowMap → Nat → Prop
  join : ∀ {fm fm' : FollowMap} {h1 h2 h : Nat}, Ok fm → Known fm h1 → Known fm h2 →
    fm.join h1 h2 = .ok (fm', h) →
    Ok fm' ∧ h < Limits.MaxTerminal ∧ Known fm' h ∧ (Has fm' h ↔ Has fm h1 ∨ Has fm h2) ∧
      ∀ h0, Known fm h0 → Known fm' h0 ∧ (Has fm' h0 ↔ Has fm h0)

namespace Joining

variable (j : Joining)

/-- Handles in use mean the same later. -/
def Stable (fm fm' : FollowMap) : Prop :=
  ∀ handle, j.Known fm handle → j.Known fm' handle ∧ (j.Has fm' handle ↔ j.Has fm handle)

/-- The handles of items are in use. -/
def KnownItems (fm : FollowMap) (items : List TransitionItem) : Prop :=
  ∀ item ∈ items, j.Known fm item.follow

/-- An item at a position has the property. -/
def At (fm : FollowMap) (items : List TransitionItem) (prodindex prodpos : Nat) : Prop :=
  ∃ item ∈ items, item.prodindex = prodindex ∧ item.prodpos = prodpos ∧ j.Has fm item.follow

variable {j} {fm fm' fm'' : FollowMap} {items : List TransitionItem} {p k : Nat}

theorem Stable.refl (fm : FollowMap) : j.Stable fm fm := fun _ known => ⟨known, Iff.rfl⟩

theorem Stable.trans (first : j.Stable fm fm') (second : j.Stable fm' fm'') : j.Stable fm fm'' :=
  fun handle known =>
    have ⟨known', has'⟩ := first handle known
    have ⟨known'', has''⟩ := second handle known'
    ⟨known'', has''.trans has'⟩

theorem Stable.knownItems (stable : j.Stable fm fm') (known : j.KnownItems fm items) :
    j.KnownItems fm' items := fun item mem => (stable _ (known item mem)).1

theorem Stable.at_iff (stable : j.Stable fm fm') (known : j.KnownItems fm items) :
    j.At fm' items p k ↔ j.At fm items p k := by
  unfold At
  constructor
  · intro ⟨item, mem, index, pos, has⟩
    exact ⟨item, mem, index, pos, (stable _ (known item mem)).2.mp has⟩
  · intro ⟨item, mem, index, pos, has⟩
    exact ⟨item, mem, index, pos, (stable _ (known item mem)).2.mpr has⟩

theorem at_append {more : List TransitionItem} :
    j.At fm (items ++ more) p k ↔ j.At fm items p k ∨ j.At fm more p k := by
  unfold At
  simp only [List.mem_append, or_and_right, exists_or]

theorem at_cons {item : TransitionItem} :
    j.At fm (item :: items) p k ↔
      (item.prodindex = p ∧ item.prodpos = k ∧ j.Has fm item.follow) ∨ j.At fm items p k := by
  unfold At
  simp only [List.mem_cons, or_and_right, exists_or, exists_eq_left]

/-- What joining the items with the position of the first one does. -/
structure JoinedGroup (j : Joining) (fm fm' : FollowMap) (item item' : TransitionItem)
    (items rest : List TransitionItem) : Prop where
  ok : j.Ok fm'
  stable : j.Stable fm fm'
  known : j.Known fm' item'.follow
  room : item'.follow < Limits.MaxTerminal
  at_iff : ∀ p k, j.At fm' (item' :: rest) p k ↔ j.At fm (item :: items) p k
  subset : rest ⊆ items
  length : rest.length ≤ items.length
  pos : item'.prodpos = item.prodpos

theorem joinSamePosition_spec {rest : List TransitionItem} {item item' : TransitionItem}
    (ok : j.Ok fm) (known : j.Known fm item.follow) (knownItems : j.KnownItems fm items)
    (room : item.follow < Limits.MaxTerminal)
    (h : joinSamePosition items item fm = .ok (fm', item', rest)) :
    JoinedGroup j fm fm' item item' items rest := by
  induction items generalizing fm item with
  | nil =>
    obtain ⟨rfl, rfl, rfl⟩ : fm = fm' ∧ item = item' ∧ [] = rest := by
      simpa [joinSamePosition] using h
    exact ⟨ok, .refl fm, known, room, fun _ _ => Iff.rfl, fun _ mem => mem, Nat.le_refl _, rfl⟩
  | cons item2 items ih =>
    unfold joinSamePosition at h
    split at h
    · obtain ⟨rfl, rfl, rfl⟩ : fm = fm' ∧ item = item' ∧ item2 :: items = rest := by
        simpa using h
      exact ⟨ok, .refl fm, known, room, fun _ _ => Iff.rfl, fun _ mem => mem, Nat.le_refl _, rfl⟩
    · rename_i same
      obtain ⟨index, pos⟩ : item2.prodindex = item.prodindex ∧ item2.prodpos = item.prodpos := by
        simpa using same
      obtain ⟨⟨fm1, joined⟩, join, h⟩ := bind_eq_ok.mp h
      have known2 := knownItems item2 List.mem_cons_self
      have knownRest : j.KnownItems fm items :=
        fun x mem => knownItems x (List.mem_cons_of_mem item2 mem)
      obtain ⟨ok1, room1, known1, has1, stable1⟩ := j.join ok known2 known join
      have knownJoined : j.Known fm1 { item with follow := joined }.follow := known1
      have group := ih ok1 knownJoined (Stable.knownItems stable1 knownRest) room1 h
      refine ⟨group.ok, Stable.trans stable1 group.stable, group.known, group.room, ?_,
        fun x mem => List.mem_cons_of_mem item2 (group.subset mem),
        Nat.le_succ_of_le group.length, group.pos⟩
      intro p k
      rw [group.at_iff, at_cons, at_cons, at_cons, Stable.at_iff stable1 knownRest, has1, index,
        pos]
      tauto

theorem mergeLoop_spec {fuel : Nat} {state state' : TransitionState} (ok : j.Ok fm)
    (known : j.KnownItems fm items) (knownState : j.KnownItems fm state.unpack)
    (fits : ∀ item ∈ items, item.Fits) (h : mergeLoop fuel items fm state = .ok (fm', state')) :
    j.Ok fm' ∧ j.Stable fm fm' ∧ j.KnownItems fm' state'.unpack ∧
      ∀ p k, j.At fm' state'.unpack p k ↔ j.At fm state.unpack p k ∨ j.At fm items p k := by
  induction fuel generalizing items fm state with
  | zero =>
    cases items with
    | cons item items => simp [mergeLoop] at h
    | nil =>
      obtain ⟨rfl, rfl⟩ : fm = fm' ∧ state = state' := by simpa [mergeLoop] using h
      exact ⟨ok, .refl fm, knownState, by simp [At]⟩
  | succ fuel ih =>
    cases items with
    | nil =>
      obtain ⟨rfl, rfl⟩ : fm = fm' ∧ state = state' := by simpa [mergeLoop] using h
      exact ⟨ok, .refl fm, knownState, by simp [At]⟩
    | cons item items =>
      unfold mergeLoop at h
      obtain ⟨⟨fm1, item1, rest⟩, joined, h⟩ := bind_eq_ok.mp h
      have knownRest : j.KnownItems fm items :=
        fun x mem => known x (List.mem_cons_of_mem item mem)
      have room := fits item List.mem_cons_self
      have group := joinSamePosition_spec ok (known item List.mem_cons_self) knownRest room.2 joined
      have fits1 : item1.Fits := by
        refine ⟨?_, group.room⟩
        rw [group.pos]
        exact room.1
      have knownState1 := group.stable.knownItems knownState
      have knownInserted : j.KnownItems fm1 (state.insert item1).unpack := by
        intro x mem
        rcases (TransitionState.mem_unpack_insert fits1).mp mem with rfl | old
        · exact group.known
        · exact knownState1 x old
      obtain ⟨ok2, stable2, known2, at2⟩ := ih group.ok
        (fun x mem => group.stable.knownItems knownRest x (group.subset mem)) knownInserted
        (fun x mem => fits x (List.mem_cons_of_mem item (group.subset mem))) h
      refine ⟨ok2, group.stable.trans stable2, known2, ?_⟩
      intro p k
      have inserted : j.At fm1 (state.insert item1).unpack p k ↔
          j.At fm1 (item1 :: state.unpack) p k := by
        unfold At
        simp only [TransitionState.mem_unpack_insert fits1, List.mem_cons]
      have group_at := group.at_iff p k
      rw [at_cons] at group_at
      rw [at2, inserted, at_cons, group.stable.at_iff knownState, ← group_at]
      tauto

theorem joinLr1TransitionStates_spec {s1 s2 st : TransitionState} (ok : j.Ok fm)
    (known1 : j.KnownItems fm s1.unpack) (known2 : j.KnownItems fm s2.unpack)
    (h : joinLr1TransitionStates fm s1 s2 = .ok (fm', st)) :
    j.Ok fm' ∧ j.Stable fm fm' ∧ j.KnownItems fm' st.unpack ∧
      ∀ p k, j.At fm' st.unpack p k ↔ j.At fm s1.unpack p k ∨ j.At fm s2.unpack p k := by
  have known : j.KnownItems fm (s1.join s2).unpack := by
    intro item mem
    rcases TransitionState.mem_unpack_join.mp mem with left | right
    · exact known1 item left
    · exact known2 item right
  obtain ⟨ok', stable, known', at_iff⟩ := mergeLoop_spec ok known
    (show j.KnownItems fm ({} : TransitionState).unpack by simp [KnownItems])
    (fun item mem => (TransitionState.mem_unpack.mp mem).1) h
  refine ⟨ok', stable, known', fun p k => ?_⟩
  rw [at_iff]
  unfold At
  simp only [TransitionState.unpack_empty, List.not_mem_nil, false_and, exists_false, false_or,
    TransitionState.mem_unpack_join, or_and_right, exists_or]

/-- A numbered state has an item at a position with the property. -/
def AtState (j : Joining) (fm : FollowMap) (states : SortedMap Int TransitionState) (n : Int)
    (p k : Nat) : Prop :=
  ∃ st, states.find n = some st ∧ j.At fm st.unpack p k

def KnownStates (j : Joining) (fm : FollowMap) (states : SortedMap Int TransitionState) : Prop :=
  ∀ n st, states.find n = some st → j.KnownItems fm st.unpack

structure Merged (j : Joining) (lr0statemap lr1states : StateAssignments) (fm fm' : FollowMap)
    (states states' : SortedMap Int TransitionState) : Prop where
  ok : j.Ok fm'
  stable : j.Stable fm fm'
  known : j.KnownStates fm' states'
  at_iff : ∀ n p k, j.AtState fm' states' n p k ↔ j.AtState fm states n p k ∨
    ∃ st ∈ lr1states, numberOf lr0statemap (getLr0TransitionStateFromLr1State st.1) = some n ∧
      j.At fm st.1.unpack p k
  find_iff : ∀ n, (∃ st, states'.find n = some st) ↔ (∃ st, states.find n = some st) ∨
    ∃ st ∈ lr1states, numberOf lr0statemap (getLr0TransitionStateFromLr1State st.1) = some n
  numbered : ∀ st ∈ lr1states,
    ∃ n, numberOf lr0statemap (getLr0TransitionStateFromLr1State st.1) = some n

theorem mergeLr1State_spec {lr0statemap : StateAssignments}
    {states states' : SortedMap Int TransitionState} {st : TransitionState × Int} (ok : j.Ok fm)
    (known : j.KnownStates fm states) (knownState : j.KnownItems fm st.1.unpack)
    (h : mergeLr1State lr0statemap (fm, states) st = .ok (fm', states')) :
    Merged j lr0statemap [st] fm fm' states states' := by
  unfold mergeLr1State at h
  cases number : numberOf lr0statemap (getLr0TransitionStateFromLr1State st.1) with
  | none => simp [number] at h
  | some n =>
    simp only [number] at h
    obtain ⟨⟨fm1, joined⟩, join, h⟩ := bind_eq_ok.mp h
    obtain ⟨rfl, rfl⟩ : fm1 = fm' ∧ states.set n joined = states' := by simpa using h
    have knownOld : j.KnownItems fm ((states.find n).getD {}).unpack := by
      cases found : states.find n with
      | none => simp [KnownItems]
      | some old => exact known n old found
    obtain ⟨ok', stable, known', at_iff⟩ := joinLr1TransitionStates_spec ok knownOld knownState join
    refine ⟨ok', stable, ?_, ?_, ?_, ?_⟩
    · intro m st' found
      rw [SortedMap.find_set] at found
      split at found
      · obtain rfl := Option.some.inj found
        exact known'
      · exact stable.knownItems (known m st' found)
    · intro m p k
      unfold AtState
      by_cases same : m = n
      · subst same
        have at_joined := at_iff p k
        cases found : states.find m with
        | none => simpa [SortedMap.find_set, number, found, At] using at_joined
        | some old => simpa [SortedMap.find_set, number, found] using at_joined
      · have other : ¬ n = m := fun eq => same eq.symm
        simp only [SortedMap.find_set, if_false, List.mem_singleton, exists_eq_left, number,
          Option.some.injEq, other, false_and, or_false]
        constructor
        · intro ⟨st', found, here⟩
          exact ⟨st', found, (stable.at_iff (known m st' found)).mp here⟩
        · intro ⟨st', found, here⟩
          exact ⟨st', found, (stable.at_iff (known m st' found)).mpr here⟩
    · intro m
      by_cases same : m = n
      · subst same
        simp [number]
      · have other : ¬ n = m := fun eq => same eq.symm
        simp [SortedMap.find_set, number, other]
    · intro st' mem
      obtain rfl := List.mem_singleton.mp mem
      exact ⟨n, number⟩

theorem merge_foldlM {lr0statemap : StateAssignments} {l : StateAssignments}
    {states states' : SortedMap Int TransitionState} (ok : j.Ok fm)
    (known : j.KnownStates fm states) (knownItems : ∀ st ∈ l, j.KnownItems fm st.1.unpack)
    (h : l.foldlM (mergeLr1State lr0statemap) (fm, states) = .ok (fm', states')) :
    Merged j lr0statemap l fm fm' states states' := by
  induction l generalizing fm states with
  | nil =>
    obtain ⟨rfl, rfl⟩ : fm = fm' ∧ states = states' := by simpa [pure, Except.pure] using h
    exact ⟨ok, .refl fm, known, by simp, by simp, by simp⟩
  | cons st l ih =>
    rw [List.foldlM_cons] at h
    obtain ⟨⟨fm1, states1⟩, first, h⟩ := bind_eq_ok.mp h
    have head := mergeLr1State_spec ok known (knownItems st List.mem_cons_self) first
    have knownTail : ∀ st ∈ l, j.KnownItems fm st.1.unpack :=
      fun x mem => knownItems x (List.mem_cons_of_mem st mem)
    have tail := ih head.ok head.known
      (fun x mem => head.stable.knownItems (knownTail x mem)) h
    refine ⟨tail.ok, head.stable.trans tail.stable, tail.known, ?_, ?_, ?_⟩
    · intro n p k
      have later : (∃ x ∈ l, numberOf lr0statemap (getLr0TransitionStateFromLr1State x.1) = some n ∧
            j.At fm1 x.1.unpack p k) ↔
          ∃ x ∈ l, numberOf lr0statemap (getLr0TransitionStateFromLr1State x.1) = some n ∧
            j.At fm x.1.unpack p k := by
        constructor
        · intro ⟨x, mem, number, here⟩
          exact ⟨x, mem, number, (head.stable.at_iff (knownTail x mem)).mp here⟩
        · intro ⟨x, mem, number, here⟩
          exact ⟨x, mem, number, (head.stable.at_iff (knownTail x mem)).mpr here⟩
      rw [tail.at_iff, head.at_iff, later]
      simp only [List.mem_cons, List.not_mem_nil, or_false, or_and_right, exists_or,
        exists_eq_left, or_assoc]
    · intro n
      rw [tail.find_iff, head.find_iff]
      simp only [List.mem_cons, List.not_mem_nil, or_false, or_and_right, exists_or,
        exists_eq_left, or_assoc]
    · intro x mem
      rcases List.mem_cons.mp mem with rfl | mem
      · exact head.numbered x (List.mem_singleton_self x)
      · exact tail.numbered x mem

theorem calculateLalr1StateMap_spec {order : HashOrder (TransitionState × Int)}
    {lr0statemap lr1statemap : StateAssignments} {states : SortedMap Int TransitionState}
    (ok : j.Ok fm) (knownItems : ∀ st ∈ lr1statemap, j.KnownItems fm st.1.unpack)
    (h : calculateLalr1StateMap order lr0statemap lr1statemap fm = .ok (fm', states)) :
    Merged j lr0statemap lr1statemap fm fm' SortedMap.empty states := by
  have mem_iff : ∀ st, st ∈ order.visit lr1statemap ↔ st ∈ lr1statemap :=
    fun st => (order.perm lr1statemap).mem_iff
  have knownStart : j.KnownStates fm SortedMap.empty := by simp [KnownStates]
  have merged := merge_foldlM ok knownStart (fun st mem => knownItems st ((mem_iff st).mp mem)) h
  refine ⟨merged.ok, merged.stable, merged.known, fun n p k => ?_, fun n => ?_, fun st mem => ?_⟩
  · rw [merged.at_iff]
    simp only [mem_iff]
  · rw [merged.find_iff]
    simp only [mem_iff]
  · exact merged.numbered st ((mem_iff st).mpr mem)

end Joining

/-! Positions only. -/

/-- The unions calculated so far have handles with room in the packed items. -/
def FollowMap.JoinsFit (fm : FollowMap) : Prop :=
  ∀ key handle, fm.joinMap.find key = some handle → handle < Limits.MaxTerminal

theorem IntSetHandleMap.get_le (map : IntSetHandleMap) (elem : FlatSet Int) :
    (map.get elem).2 ≤ map.size := by
  unfold get size
  split
  · rename_i i found
    have inside := (List.findIdx?_eq_some_iff_findIdx_eq.mp found).1
    omega
  · exact Nat.le_refl _

theorem FollowMap.join_fits {fm fm' : FollowMap} {h1 h2 h : Nat} (fits : fm.JoinsFit)
    (joined : fm.join h1 h2 = .ok (fm', h)) : fm'.JoinsFit ∧ h < Limits.MaxTerminal := by
  unfold join at joined
  split at joined
  · simp at joined
  · rename_i small
    split at joined
    · rename_i handle known
      obtain ⟨rfl, rfl⟩ : fm = fm' ∧ handle = h := by simpa using joined
      exact ⟨fits, fits _ _ known⟩
    · obtain ⟨⟨followMap, handle⟩, union, joined⟩ := bind_eq_ok.mp joined
      unfold IntSetHandleMap.join at union
      obtain ⟨first, _, union⟩ := bind_eq_ok.mp union
      obtain ⟨second, _, union⟩ := bind_eq_ok.mp union
      have handle_eq : (fm.followMap.get (first.insertAll second.elems)).2 = handle :=
        congrArg Prod.snd (Except.ok.inj union)
      have le := fm.followMap.get_le (first.insertAll second.elems)
      rw [handle_eq] at le
      have small : fm.followMap.size < 2 ^ 10 - 1 := not_le.mp small
      have room : handle < Limits.MaxTerminal := by
        show handle < 2 ^ 10
        omega
      obtain ⟨rfl, rfl⟩ : _ = fm' ∧ handle = h := by simpa using joined
      refine ⟨?_, room⟩
      intro key value found
      simp only [SortedMap.find_set] at found
      split at found
      · obtain rfl := Option.some.inj found
        exact room
      · exact fits key value found

def Joining.positions : Joining where
  Ok := FollowMap.JoinsFit
  Known _ _ := True
  Has _ _ := True
  join fits _ _ joined := by
    obtain ⟨fits', room⟩ := FollowMap.join_fits fits joined
    exact ⟨fits', room, True.intro, by simp, by simp⟩

end Mewa

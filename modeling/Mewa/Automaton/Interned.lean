/- Module: Mewa/Automaton/Interned
   digest: Handles of sets found through a hash map, and the cache of their unions. -/

import Mewa.Automaton.First
import Mewa.Lib.Interned

set_option autoImplicit false
set_option relaxedAutoImplicit false

namespace Mewa

open Mewa.Lib

namespace Hashed

abbrev IntSetHandleMap := HandleTable (FlatSet Int)

namespace IntSetHandleMap

def join (map : IntSetHandleMap) (handle1 handle2 : Nat) :
    Except Failure (IntSetHandleMap × Nat) :=
  match map.content handle1, map.content handle2 with
  | some newelem, some add => .ok (map.get (newelem.insertAll add.elems))
  | _, _ => .error .outOfRange

def size (map : IntSetHandleMap) : Nat := map.inv.length + map.startidx

end IntSetHandleMap

/-- The sets with the unions calculated so far. -/
structure FollowMap where
  joinMap : SortedMap (Nat ×ₗ Nat) Nat
  followMap : IntSetHandleMap

inductive Call
  | get (elem : FlatSet Int)
  | join (handle1 handle2 : Nat)

namespace FollowMap

def start (startidx : Nat) : FollowMap := ⟨SortedMap.empty, HandleTable.start startidx⟩

def join (fm : FollowMap) (handle1 handle2 : Nat) : Except Failure (FollowMap × Nat) :=
  if IntSetHandleMap.size fm.followMap ≥ Limits.MaxTerminal - 1 then
    .error (.thrown ⟨.ComplexityLR1FollowSetsInGrammarDef, "", 0⟩)
  else
    match fm.joinMap.find (toLex (handle1, handle2)) with
    | some handle => .ok (fm, handle)
    | none =>
      match IntSetHandleMap.join fm.followMap handle1 handle2 with
      | .ok (followMap, handle) =>
        .ok (⟨fm.joinMap.set (toLex (handle1, handle2)) handle, followMap⟩, handle)
      | .error e => .error e

def content (fm : FollowMap) (handle : Nat) : Option (FlatSet Int) := fm.followMap.content handle

def call (fm : FollowMap) : Call → Except Failure (FollowMap × Nat)
  | .get elem => .ok (⟨fm.joinMap, (fm.followMap.get elem).1⟩, (fm.followMap.get elem).2)
  | .join handle1 handle2 => fm.join handle1 handle2

/-- The sets after a call. A call that throws leaves them as they are. -/
def step (fm : FollowMap) (c : Call) : FollowMap :=
  match fm.call c with
  | .ok (fm', _) => fm'
  | .error _ => fm

def runAll (startidx : Nat) (calls : List Call) : FollowMap := calls.foldl step (start startidx)

end FollowMap

/-! What one call does. -/

section Calls

variable {map : IntSetHandleMap} {fm fm' : FollowMap} {c : Call} {h1 h2 h : Nat}
  {s1 s2 s : FlatSet Int}

theorem join_of_content (first : map.content h1 = some s1) (second : map.content h2 = some s2) :
    IntSetHandleMap.join map h1 h2 = .ok (map.get (s1.insertAll s2.elems)) := by
  unfold IntSetHandleMap.join
  rw [first, second]

theorem mem_union {x : Int} : x ∈ s1.insertAll s2.elems ↔ x ∈ s1 ∨ x ∈ s2 := by
  rw [SortedSet.mem_insertAll, ← SortedSet.mem_def]
  exact or_comm

theorem content_of_join {result : IntSetHandleMap × Nat}
    (joined : IntSetHandleMap.join map h1 h2 = .ok result) :
    ∃ s1 s2, map.content h1 = some s1 ∧ map.content h2 = some s2 ∧
      result = map.get (s1.insertAll s2.elems) := by
  unfold IntSetHandleMap.join at joined
  split at joined
  · rename_i first second
    exact ⟨_, _, first, second, (Except.ok.inj joined).symm⟩
  · cases joined

/-- The map has the places of the sets, and every union calculated so far would be calculated
    again. -/
structure Sound (fm : FollowMap) : Prop where
  consistent : fm.followMap.Consistent
  cached : ∀ h1 h2 h, fm.joinMap.find (toLex (h1, h2)) = some h →
    ∃ s1 s2, fm.content h1 = some s1 ∧ fm.content h2 = some s2 ∧
      fm.content h = some (s1.insertAll s2.elems)

def Answers (fm : FollowMap) (h : Nat) : Call → Prop
  | .get elem => fm.content h = some elem
  | .join h1 h2 => ∃ s1 s2, fm.content h1 = some s1 ∧ fm.content h2 = some s2 ∧
      fm.content h = some (s1.insertAll s2.elems)

/-- The handles keep their sets. -/
def Keeps (fm fm' : FollowMap) : Prop := ∀ h s, fm.content h = some s → fm'.content h = some s

theorem Answers.kept {fm fm' : FollowMap} (answers : Answers fm h c) (keeps : Keeps fm fm') :
    Answers fm' h c := by
  cases c with
  | get elem => exact keeps h elem answers
  | join h1 h2 =>
    obtain ⟨s1, s2, first, second, union⟩ := answers
    exact ⟨s1, s2, keeps h1 s1 first, keeps h2 s2 second, keeps h _ union⟩

theorem join_returns (first : fm.content h1 = some s1) (second : fm.content h2 = some s2)
    (room : IntSetHandleMap.size fm.followMap < Limits.MaxTerminal - 1) :
    ∃ fm' h, fm.call (.join h1 h2) = .ok (fm', h) := by
  show ∃ fm' h, fm.join h1 h2 = .ok (fm', h)
  unfold FollowMap.join
  rw [if_neg (not_le.mpr room), join_of_content first second]
  split
  · exact ⟨_, _, rfl⟩
  · exact ⟨_, _, rfl⟩

theorem call_spec (sound : Sound fm) (called : fm.call c = .ok (fm', h)) :
    Sound fm' ∧ Keeps fm fm' ∧ Answers fm' h c := by
  cases c with
  | get elem =>
    obtain ⟨rfl, rfl⟩ := Prod.mk.inj (Except.ok.inj called)
    obtain ⟨consistent, here, -, kept⟩ := HandleTable.get_spec sound.consistent elem
    refine ⟨⟨consistent, ?_⟩, kept, here⟩
    intro h1 h2 h known
    obtain ⟨s1, s2, first, second, union⟩ := sound.cached h1 h2 h known
    exact ⟨s1, s2, kept _ _ first, kept _ _ second, kept _ _ union⟩
  | join h1 h2 =>
    unfold FollowMap.call FollowMap.join at called
    simp only at called
    split at called
    · cases called
    · split at called
      · rename_i handle known
        obtain ⟨rfl, rfl⟩ := Prod.mk.inj (Except.ok.inj called)
        exact ⟨sound, fun _ _ => id, sound.cached h1 h2 handle known⟩
      · split at called
        · rename_i followMap handle joined
          obtain ⟨rfl, rfl⟩ := Prod.mk.inj (Except.ok.inj called)
          obtain ⟨s1, s2, first, second, same⟩ := content_of_join joined
          obtain ⟨rfl, rfl⟩ := Prod.mk.inj same
          obtain ⟨consistent, here, -, kept⟩ :=
            HandleTable.get_spec sound.consistent (s1.insertAll s2.elems)
          have union : ∃ t1 t2, (fm.followMap.get (s1.insertAll s2.elems)).1.content h1 = some t1 ∧
              (fm.followMap.get (s1.insertAll s2.elems)).1.content h2 = some t2 ∧
              (fm.followMap.get (s1.insertAll s2.elems)).1.content
                (fm.followMap.get (s1.insertAll s2.elems)).2 = some (t1.insertAll t2.elems) :=
            ⟨s1, s2, kept _ _ first, kept _ _ second, here⟩
          refine ⟨⟨consistent, ?_⟩, kept, union⟩
          intro h1' h2' h' known
          rw [SortedMap.find_set] at known
          split at known
          · rename_i same_key
            obtain ⟨rfl, rfl⟩ := Prod.mk.inj (toLex.injective same_key)
            obtain rfl := Option.some.inj known
            exact union
          · obtain ⟨t1, t2, first', second', union'⟩ := sound.cached h1' h2' h' known
            exact ⟨t1, t2, kept _ _ first', kept _ _ second', kept _ _ union'⟩
        · cases called

theorem step_spec (sound : Sound fm) (c : Call) : Sound (fm.step c) ∧ Keeps fm (fm.step c) := by
  unfold FollowMap.step
  split
  · rename_i fm' h called
    obtain ⟨sound', keeps, -⟩ := call_spec sound called
    exact ⟨sound', keeps⟩
  · exact ⟨sound, fun _ _ => id⟩

theorem steps_spec (sound : Sound fm) (calls : List Call) :
    Sound (calls.foldl FollowMap.step fm) ∧ Keeps fm (calls.foldl FollowMap.step fm) := by
  induction calls generalizing fm with
  | nil => exact ⟨sound, fun _ _ => id⟩
  | cons c calls ih =>
    obtain ⟨sound', keeps⟩ := step_spec sound c
    obtain ⟨last, rest⟩ := ih sound'
    exact ⟨last, fun h s here => rest h s (keeps h s here)⟩

theorem runAll_sound (startidx : Nat) (calls : List Call) :
    Sound (FollowMap.runAll startidx calls) := by
  have start : Sound (FollowMap.start startidx) :=
    ⟨HandleTable.start_consistent startidx, fun _ _ _ known => by cases known⟩
  exact (steps_spec start calls).1

end Calls

/-! Any sequence of calls. -/

section Runs

variable {startidx : Nat} {calls : List Call} {c : Call} {h h1 h2 : Nat}

def Returned (startidx : Nat) (calls : List Call) (c : Call) (h : Nat) : Prop :=
  ∃ before after fm', calls = before ++ c :: after ∧
    (FollowMap.runAll startidx before).call c = .ok (fm', h)

/-- The sets of the calls, their handles and their unions. Every call returns, as long as its
    handles were given and there are not too many sets. -/
structure Interned (startidx : Nat) (calls : List Call) : Prop where
  distinct : ∀ h1 h2 s1 s2, (FollowMap.runAll startidx calls).content h1 = some s1 →
    (FollowMap.runAll startidx calls).content h2 = some s2 → (h1 = h2 ↔ s1 = s2)
  kept : ∀ before after, calls = before ++ after → ∀ h s,
    (FollowMap.runAll startidx before).content h = some s →
    (FollowMap.runAll startidx calls).content h = some s
  got : ∀ s h, Returned startidx calls (.get s) h →
    (FollowMap.runAll startidx calls).content h = some s
  union : ∀ h1 h2 h, Returned startidx calls (.join h1 h2) h → ∃ s1 s2 s,
    (FollowMap.runAll startidx calls).content h1 = some s1 ∧
    (FollowMap.runAll startidx calls).content h2 = some s2 ∧
    (FollowMap.runAll startidx calls).content h = some s ∧ ∀ x, x ∈ s ↔ x ∈ s1 ∨ x ∈ s2
  comm : ∀ h1 h2 h h', Returned startidx calls (.join h1 h2) h →
    Returned startidx calls (.join h2 h1) h' → h = h'
  assoc : ∀ h1 h2 h3 h12 h23 h h', Returned startidx calls (.join h1 h2) h12 →
    Returned startidx calls (.join h12 h3) h → Returned startidx calls (.join h2 h3) h23 →
    Returned startidx calls (.join h1 h23) h' → h = h'
  idem : ∀ h1 h, Returned startidx calls (.join h1 h1) h → h = h1
  cached : ∀ h1 h2 h,
    (FollowMap.runAll startidx calls).joinMap.find (toLex (h1, h2)) = some h →
    IntSetHandleMap.join (FollowMap.runAll startidx calls).followMap h1 h2 =
      .ok ((FollowMap.runAll startidx calls).followMap, h)
  gets : ∀ s, ∃ fm' h, (FollowMap.runAll startidx calls).call (.get s) = .ok (fm', h) ∧
    fm'.content h = some s
  joins : ∀ h1 h2 s1 s2, (FollowMap.runAll startidx calls).content h1 = some s1 →
    (FollowMap.runAll startidx calls).content h2 = some s2 →
    IntSetHandleMap.size (FollowMap.runAll startidx calls).followMap < Limits.MaxTerminal - 1 →
    ∃ fm' h s, (FollowMap.runAll startidx calls).call (.join h1 h2) = .ok (fm', h) ∧
      fm'.content h = some s ∧ ∀ x, x ∈ s ↔ x ∈ s1 ∨ x ∈ s2
  mapJoins : ∀ h1 h2 s1 s2, (FollowMap.runAll startidx calls).content h1 = some s1 →
    (FollowMap.runAll startidx calls).content h2 = some s2 → ∃ map h s,
      IntSetHandleMap.join (FollowMap.runAll startidx calls).followMap h1 h2 = .ok (map, h) ∧
      map.content h = some s ∧ ∀ x, x ∈ s ↔ x ∈ s1 ∨ x ∈ s2

theorem runAll_kept (before after : List Call) :
    Keeps (FollowMap.runAll startidx before) (FollowMap.runAll startidx (before ++ after)) := by
  unfold FollowMap.runAll
  rw [List.foldl_append]
  exact (steps_spec (runAll_sound startidx before) after).2

theorem Returned.answers (returned : Returned startidx calls c h) :
    Answers (FollowMap.runAll startidx calls) h c := by
  obtain ⟨before, after, fm', rfl, called⟩ := returned
  obtain ⟨-, -, answers⟩ := call_spec (runAll_sound startidx before) called
  have here : FollowMap.runAll startidx (before ++ [c]) = fm' := by
    have last : FollowMap.runAll startidx (before ++ [c]) =
        (FollowMap.runAll startidx before).step c := by simp [FollowMap.runAll]
    rw [last]
    unfold FollowMap.step
    rw [called]
  rw [← here] at answers
  have keeps : Keeps (FollowMap.runAll startidx (before ++ [c])) _ :=
    runAll_kept (before ++ [c]) after
  have whole : before ++ [c] ++ after = before ++ c :: after := by simp
  rw [whole] at keeps
  exact answers.kept keeps

/-- The sets at the end of the run are the same, and so are their handles. -/
theorem interned (startidx : Nat) (calls : List Call) : Interned startidx calls := by
  have sound := runAll_sound startidx calls
  have distinct : ∀ h1 h2 s1 s2, (FollowMap.runAll startidx calls).content h1 = some s1 →
      (FollowMap.runAll startidx calls).content h2 = some s2 → (h1 = h2 ↔ s1 = s2) :=
    fun _ _ _ _ first second => HandleTable.content_inj sound.consistent first second
  have union : ∀ h1 h2 h, Returned startidx calls (.join h1 h2) h → ∃ s1 s2 s,
      (FollowMap.runAll startidx calls).content h1 = some s1 ∧
      (FollowMap.runAll startidx calls).content h2 = some s2 ∧
      (FollowMap.runAll startidx calls).content h = some s ∧
      ∀ x, x ∈ s ↔ x ∈ s1 ∨ x ∈ s2 := by
    intro h1 h2 h returned
    obtain ⟨s1, s2, first, second, both⟩ := returned.answers
    exact ⟨s1, s2, _, first, second, both, fun x => mem_union⟩
  refine ⟨distinct, ?_, fun s h returned => returned.answers, union, ?_, ?_, ?_, ?_, ?_, ?_, ?_⟩
  · rintro before after rfl
    exact runAll_kept before after
  · intro h1 h2 h h' returned returned'
    obtain ⟨s1, s2, s, first, second, both, members⟩ := union _ _ _ returned
    obtain ⟨t2, t1, t, second', first', both', members'⟩ := union _ _ _ returned'
    obtain rfl := Option.some.inj (first.symm.trans first')
    obtain rfl := Option.some.inj (second.symm.trans second')
    rw [distinct h h' s t both both']
    apply SortedSet.eq_of_mem_iff
    intro x
    rw [members, members']
    exact or_comm
  · intro h1 h2 h3 h12 h23 h h' left outer right outer'
    obtain ⟨s1, s2, s12, first, second, at_h12, members12⟩ := union _ _ _ left
    obtain ⟨t12, s3, s, at_h12', third, at_h, members⟩ := union _ _ _ outer
    obtain ⟨t2, t3, s23, second', third', at_h23, members23⟩ := union _ _ _ right
    obtain ⟨t1, t23, t, first', at_h23', at_h', members'⟩ := union _ _ _ outer'
    obtain rfl := Option.some.inj (at_h12.symm.trans at_h12')
    obtain rfl := Option.some.inj (at_h23.symm.trans at_h23')
    obtain rfl := Option.some.inj (first.symm.trans first')
    obtain rfl := Option.some.inj (second.symm.trans second')
    obtain rfl := Option.some.inj (third.symm.trans third')
    rw [distinct h h' s t at_h at_h']
    apply SortedSet.eq_of_mem_iff
    intro x
    rw [members, members12, members', members23]
    exact or_assoc
  · intro h1 h returned
    obtain ⟨s1, s2, s, first, second, both, members⟩ := union _ _ _ returned
    obtain rfl := Option.some.inj (first.symm.trans second)
    rw [distinct h h1 s s1 both first]
    apply SortedSet.eq_of_mem_iff
    intro x
    rw [members]
    exact or_self_iff
  · intro h1 h2 h known
    obtain ⟨s1, s2, first, second, both⟩ := sound.cached h1 h2 h known
    rw [join_of_content first second, HandleTable.get_of_content sound.consistent both]
  · exact fun s => ⟨_, _, rfl, (HandleTable.get_spec sound.consistent s).2.1⟩
  · intro h1 h2 s1 s2 first second room
    obtain ⟨fm', h, called⟩ := join_returns first second room
    obtain ⟨-, keeps, t1, t2, first', second', both⟩ := call_spec sound called
    obtain rfl := Option.some.inj ((keeps h1 s1 first).symm.trans first')
    obtain rfl := Option.some.inj ((keeps h2 s2 second).symm.trans second')
    exact ⟨fm', h, _, called, both, fun x => mem_union⟩
  · intro h1 h2 s1 s2 first second
    obtain ⟨-, here, -⟩ := HandleTable.get_spec sound.consistent (s1.insertAll s2.elems)
    exact ⟨_, _, _, join_of_content first second, here, fun x => mem_union⟩

/-- The unions of two sets get one handle, and a set that is there already keeps its own. -/
theorem interned_union :
    let calls : List Call := [.get (SortedSet.ofList [3]), .get (SortedSet.ofList [5]), .join 1 2,
      .join 2 1, .get (SortedSet.ofList [5, 3])]
    Interned 1 calls ∧ Returned 1 calls (.get (SortedSet.ofList [5])) 2 ∧
      Returned 1 calls (.join 1 2) 3 ∧ Returned 1 calls (.join 2 1) 3 ∧
      Returned 1 calls (.get (SortedSet.ofList [5, 3])) 3 ∧
      (FollowMap.runAll 1 calls).content 3 = some (SortedSet.ofList [3, 5]) := by
  intro calls
  refine ⟨interned 1 [.get (SortedSet.ofList [3]), .get (SortedSet.ofList [5]), .join 1 2,
      .join 2 1, .get (SortedSet.ofList [5, 3])], ⟨calls.take 1, calls.drop 2, _, rfl, rfl⟩,
    ⟨calls.take 2, calls.drop 3, _, rfl, rfl⟩, ⟨calls.take 3, calls.drop 4, _, rfl, rfl⟩,
    ⟨calls.take 4, [], _, rfl, rfl⟩, rfl⟩

end Runs

/-! The sets without the hash map. -/

section Unhashed

variable {map : IntSetHandleMap} {fm : FollowMap} {elem : FlatSet Int}

def unhashed (map : IntSetHandleMap) : Mewa.IntSetHandleMap := ⟨map.inv, map.startidx⟩

theorem get_unhashed (consistent : map.Consistent) (elem : FlatSet Int) :
    (unhashed map).get elem = (unhashed (map.get elem).1, (map.get elem).2) := by
  unfold Mewa.IntSetHandleMap.get
  cases found : map.inv.findIdx? (· = elem) with
  | some i =>
    obtain ⟨bound, here, -⟩ := List.findIdx?_eq_some_iff_getElem.mp found
    have at_i : map.content (i + map.startidx) = some elem := by
      unfold HandleTable.content HandleTable.valueAt
      rw [if_pos (Nat.le_add_left _ _), Nat.add_sub_cancel, List.getElem?_eq_getElem bound]
      simpa using here
    rw [HandleTable.get_of_content consistent at_i]
    simp [unhashed, found]
  | none =>
    have missing := List.findIdx?_eq_none_iff.mp found
    have unknown : map.map.lookup elem = none := by
      cases known : map.map.lookup elem with
      | none => rfl
      | some handle =>
        have here := (consistent elem handle).mp known
        unfold HandleTable.content HandleTable.valueAt at here
        split at here
        · have mem := List.mem_of_getElem? here
          simpa using missing elem mem
        · cases here
    simp [unhashed, found, HandleTable.get, unknown]

theorem content_unhashed (from_zero : map.startidx = 0) (handle : Nat) :
    (unhashed map).content handle =
      match map.content handle with
      | some elem => .ok elem
      | none => .error .outOfRange := by
  have given : map.content handle = map.inv[handle - map.startidx]? := by
    unfold HandleTable.content HandleTable.valueAt
    rw [from_zero, if_pos (Nat.zero_le handle)]
  rw [given]
  unfold Mewa.IntSetHandleMap.content unhashed
  cases map.inv[handle - map.startidx]? with
  | some elem => rfl
  | none => rfl

/-- The joins of sets that are numbered from 0 on are those of the sets without the hash map. -/
theorem join_unhashed (consistent : fm.followMap.Consistent)
    (from_zero : fm.followMap.startidx = 0) (nodeMap : SortedMap FollowKey FollowHandle)
    (handle1 handle2 : Nat) :
    Mewa.FollowMap.join ⟨nodeMap, fm.joinMap, unhashed fm.followMap⟩ handle1 handle2 =
      (fm.join handle1 handle2).map fun result =>
        (⟨nodeMap, result.1.joinMap, unhashed result.1.followMap⟩, result.2) := by
  have same_size : (unhashed fm.followMap).size = IntSetHandleMap.size fm.followMap := rfl
  unfold Mewa.FollowMap.join FollowMap.join
  simp only [same_size]
  split
  · rfl
  · cases known : fm.joinMap.find (toLex (handle1, handle2)) with
    | some handle => rfl
    | none =>
      simp only
      unfold Mewa.IntSetHandleMap.join IntSetHandleMap.join
      rw [content_unhashed from_zero, content_unhashed from_zero]
      cases first : fm.followMap.content handle1 with
      | none => rfl
      | some newelem =>
        cases second : fm.followMap.content handle2 with
        | none => rfl
        | some add =>
          show (Except.ok ((unhashed fm.followMap).get (newelem.insertAll add.elems)) >>= _) = _
          rw [get_unhashed consistent]
          rfl

end Unhashed

end Hashed

end Mewa

-- SUMMARY: The memory tier holds the keys that entered it last, as many as its capacity allows.
import BanglaSource.Proofs.CacheCoherence
import BanglaSource.Proofs.JsonCanonical
import Mathlib.Data.List.DropRight

/-!
# Eviction from the memory tier

A key enters the tier when it is inserted and is absent. The queue holds the last
keys that entered since the tier was cleared, up to the capacity: a key that enters
pushes out the one that entered first, if the tier is full, and nothing else moves a
key. So whether a key is present can be told from what entered behind it. The map and
the queue hold the same keys all along.
-/
namespace BanglaSource

/-! ## Keys of a map -/

namespace Assoc

variable {α : Type} {key : Text} {m : Assoc α}

theorem Sorted.nodup_keys (h : m.Sorted) : (keys m).Nodup := by
  rw [keys, List.Nodup, List.pairwise_map]
  refine h.imp fun {p q} hlt heq => ?_
  exact List.lt_irrefl _ (heq ▸ hlt)

theorem Sorted.erase (h : m.Sorted) (key : Text) : (erase key m).Sorted :=
  h.filter _

theorem keys_erase (key : Text) (m : Assoc α) : keys (erase key m) = (keys m).filter (· != key) := by
  rw [keys, keys, erase, List.filter_map]
  rfl

/-- Insertion under a key of the map replaces a value. -/
theorem Sorted.keys_insert (h : m.Sorted) (hmem : key ∈ keys m) (value : α) :
    keys (insert key value m) = keys m := by
  induction m with
  | nil => simp [keys] at hmem
  | cons p m ih =>
    obtain ⟨hfirst, hrest⟩ := List.pairwise_cons.1 h
    simp only [insert]
    split
    · next hkey => simp [keys, hkey]
    · next hkey =>
      have htail : key ∈ keys m := by simpa [keys, Ne.symm hkey] using hmem
      split
      · next hlt =>
        -- No key behind `p` is smaller than its own.
        have hnone := not_contains_of_lt fun q hq => List.lt_trans hlt (hfirst q hq)
        rw [contains, mem_keys_iff.1 htail] at hnone
        cases hnone
      · exact congrArg (p.1 :: ·) (ih hrest htail)

theorem keys_insert_perm (hmem : key ∉ keys m) (value : α) :
    (keys (insert key value m)).Perm (key :: keys m) := by
  induction m with
  | nil => exact List.Perm.refl _
  | cons p m ih =>
    rw [keys, List.map_cons, List.mem_cons, not_or] at hmem
    simp only [insert, if_neg (Ne.symm hmem.1)]
    split
    · exact List.Perm.refl _
    · exact ((ih hmem.2).cons p.1).trans (List.Perm.swap ..)

/-- A queue of the keys grows with the map. -/
theorem perm_keys_insert {queue : List Text} (h : queue.Perm (keys m)) (habsent : key ∉ queue)
    (value : α) : (queue ++ [key]).Perm (keys (insert key value m)) := by
  have hnew : (keys (insert key value m)).Perm (key :: keys m) :=
    keys_insert_perm (fun hkey => habsent (h.mem_iff.2 hkey)) value
  exact (List.perm_append_singleton key queue).trans ((h.cons key).trans hnew.symm)

/-- A queue of the keys shrinks with the map. -/
theorem perm_keys_erase {queue : List Text} (h : (key :: queue).Perm (keys m))
    (hnodup : (key :: queue).Nodup) : queue.Perm (keys (erase key m)) := by
  have hqueue : (key :: queue).filter (· != key) = queue := by
    rw [List.filter_cons_of_neg (by simp), List.filter_eq_self]
    intro other hother
    exact bne_iff_ne.2 fun heq => (List.nodup_cons.1 hnodup).1 (heq ▸ hother)
  rw [keys_erase, ← hqueue]
  exact h.filter _

end Assoc

namespace Memory

/-! ## Histories -/

/-- An operation on the memory tier. -/
inductive Operation where
  | insert (key : Text) (e : Entry)
  | get (key : Text)
  | clear

/-- The tier after an operation. A lookup leaves it as it is. -/
def perform (m : Memory) : Operation → Memory
  | .insert key e => (m.insert key e).1
  | .get _ => m
  | .clear => m.clear

/-- The tier after operations. -/
def run (m : Memory) (ops : List Operation) : Memory :=
  ops.foldl perform m

/-- The key that enters the tier, or tries to: one that is inserted and absent. -/
def arrival (m : Memory) : Operation → List Text
  | .insert key _ => if (m.get? key).isNone then [key] else []
  | .get _ | .clear => []

/-- The keys of the insertions that find their key absent, in order. -/
def arrivals (m : Memory) : List Operation → List Text
  | [] => []
  | op :: ops => m.arrival op ++ (m.perform op).arrivals ops

@[simp] theorem run_nil (m : Memory) : m.run [] = m := rfl

@[simp] theorem run_cons (m : Memory) (op : Operation) (ops : List Operation) :
    m.run (op :: ops) = (m.perform op).run ops := rfl

@[simp] theorem run_append (m : Memory) (ops ops' : List Operation) :
    m.run (ops ++ ops') = (m.run ops).run ops' :=
  List.foldl_append

theorem capacity_perform (m : Memory) (op : Operation) : (m.perform op).capacity = m.capacity := by
  cases op with
  | insert key e => exact capacity_insert m key e
  | get key => rfl
  | clear => rfl

theorem capacity_run (m : Memory) (ops : List Operation) : (m.run ops).capacity = m.capacity := by
  induction ops generalizing m with
  | nil => rfl
  | cons op ops ih => rw [run_cons, ih, capacity_perform]

@[simp] theorem capacity_run_empty (c : Nat) (ops : List Operation) :
    ((empty c).run ops).capacity = c :=
  capacity_run ..

/-- A history that clears the tier starts anew. -/
theorem run_clear (c : Nat) (old ops : List Operation) :
    (empty c).run (old ++ .clear :: ops) = (empty c).run ops := by
  rw [run_append, run_cons, perform, clear, capacity_run_empty]

/-! ## Map and queue -/

/-- Whether the queue lists the keys of the map, and no more of them than the capacity
    allows. -/
structure InStep (m : Memory) : Prop where
  sorted : m.entries.Sorted
  perm : m.order.Perm (Assoc.keys m.entries)
  length_le : m.order.length ≤ m.capacity

theorem inStep_empty (capacity : Nat) : (empty capacity).InStep where
  sorted := List.Pairwise.nil
  perm := List.Perm.nil
  length_le := Nat.zero_le _

variable {m : Memory} {key : Text} {e : Entry}

theorem InStep.nodup (h : m.InStep) : m.order.Nodup :=
  h.perm.nodup_iff.2 h.sorted.nodup_keys

theorem InStep.length_order (h : m.InStep) : m.order.length = m.size := by
  rw [h.perm.length_eq, Assoc.keys, List.length_map, size]

theorem InStep.mem_order_iff (h : m.InStep) : key ∈ m.order ↔ (m.get? key).isSome = true := by
  rw [h.perm.mem_iff, Assoc.mem_keys_iff, get?]

/-- What an insertion does. -/
inductive Insertion (m : Memory) (key : Text) (e : Entry) : Memory × Option Text → Prop
  /-- A tier without capacity stays empty. -/
  | ignored : m.capacity = 0 → Insertion m key e (m, none)
  | replaced : m.capacity ≠ 0 → key ∈ m.order →
      Insertion m key e ({ m with entries := Assoc.insert key e m.entries }, none)
  | appended : key ∉ m.order → m.order.length < m.capacity →
      Insertion m key e
        ({ m with entries := Assoc.insert key e m.entries, order := m.order ++ [key] }, none)
  /-- The key that entered first leaves a full tier. -/
  | evicting {oldest : Text} {order : List Text} : key ∉ m.order → m.order = oldest :: order →
      m.order.length = m.capacity →
      Insertion m key e
        ({ m with entries := Assoc.insert key e (Assoc.erase oldest m.entries),
                  order := order ++ [key] }, some oldest)

theorem InStep.insertion (h : m.InStep) (key : Text) (e : Entry) :
    Insertion m key e (m.insert key e) := by
  have hmem : Assoc.contains key m.entries = true ↔ key ∈ m.order := h.mem_order_iff.symm
  by_cases hzero : m.capacity = 0
  · rw [Memory.insert, if_pos hzero]
    exact .ignored hzero
  by_cases hcontains : Assoc.contains key m.entries = true
  · rw [Memory.insert, if_neg hzero, if_pos hcontains]
    exact .replaced hzero (hmem.1 hcontains)
  have habsent : key ∉ m.order := fun hkey => hcontains (hmem.2 hkey)
  rw [Memory.insert, if_neg hzero, if_neg hcontains, makeRoom, ← h.length_order]
  by_cases hroom : m.order.length < m.capacity
  · rw [if_pos hroom]
    exact .appended habsent hroom
  · rw [if_neg hroom]
    have hfull : m.order.length = m.capacity := Nat.le_antisymm h.length_le (Nat.not_lt.1 hroom)
    cases horder : m.order with
    | nil => exact absurd (by rw [← hfull, horder, List.length_nil]) hzero
    | cons oldest order => exact .evicting habsent horder hfull

/-- An insertion keeps map and queue in step. -/
theorem InStep.insert (h : m.InStep) (key : Text) (e : Entry) : (m.insert key e).1.InStep := by
  have hresult := h.insertion key e
  generalize m.insert key e = result at hresult
  cases hresult with
  | ignored => exact h
  | replaced _ hmem =>
    have hkeys := h.sorted.keys_insert (h.perm.mem_iff.1 hmem) e
    exact ⟨Assoc.sorted_insert h.sorted key e, hkeys ▸ h.perm, h.length_le⟩
  | appended habsent hroom =>
    refine ⟨Assoc.sorted_insert h.sorted key e, Assoc.perm_keys_insert h.perm habsent e, ?_⟩
    rw [List.length_append]
    exact hroom
  | @evicting oldest order habsent horder hfull =>
    have hperm := Assoc.perm_keys_erase (horder ▸ h.perm) (horder ▸ h.nodup)
    have hother : key ∉ order := fun hkey => habsent (horder ▸ List.mem_cons_of_mem _ hkey)
    refine ⟨Assoc.sorted_insert (h.sorted.erase oldest) key e,
      Assoc.perm_keys_insert hperm hother e, ?_⟩
    rw [← hfull, horder, List.length_append]
    rfl

theorem InStep.perform (h : m.InStep) (op : Operation) : (m.perform op).InStep := by
  cases op with
  | insert key e => exact h.insert key e
  | get key => exact h
  | clear => exact inStep_empty _

theorem InStep.run (h : m.InStep) (ops : List Operation) : (m.run ops).InStep := by
  induction ops generalizing m with
  | nil => exact h
  | cons op ops ih => exact ih (h.perform op)

/-! ## What an insertion removes -/

theorem InStep.order_of_capacity_eq_zero (h : m.InStep) (hzero : m.capacity = 0) : m.order = [] :=
  List.length_eq_zero_iff.1 (Nat.le_zero.1 (hzero ▸ h.length_le))

theorem InStep.get?_of_capacity_eq_zero (h : m.InStep) (hzero : m.capacity = 0) (key : Text) :
    m.get? key = none := by
  rw [← Option.not_isSome_iff_eq_none, ← h.mem_order_iff, h.order_of_capacity_eq_zero hzero]
  exact List.not_mem_nil

/-- An insertion returns the key that it removes, if there is one. -/
theorem InStep.insert_eq_some_iff (h : m.InStep) {k : Text} :
    (m.insert key e).2 = some k ↔
      (m.get? k).isSome = true ∧ (m.insert key e).1.get? k = none := by
  have hresult := h.insertion key e
  generalize m.insert key e = result at hresult ⊢
  cases hresult with
  | ignored =>
    constructor
    · rintro ⟨⟩
    · rintro ⟨hbefore, hafter⟩
      rw [hafter] at hbefore
      cases hbefore
  | replaced | appended =>
    constructor
    · rintro ⟨⟩
    · rintro ⟨hbefore, hafter⟩
      rw [get?, Assoc.find?_insert] at hafter
      split at hafter
      · cases hafter
      · rw [get?, hafter] at hbefore
        cases hbefore
  | @evicting oldest order habsent horder hfull =>
    have hoverwritten : (m.get? k).isSome = true → key ≠ k := by
      rintro hbefore rfl
      exact habsent (h.mem_order_iff.2 hbefore)
    constructor
    · rintro ⟨⟩
      have hbefore : (m.get? k).isSome = true :=
        h.mem_order_iff.1 (horder ▸ List.mem_cons_self)
      refine ⟨hbefore, ?_⟩
      rw [get?, Assoc.find?_insert, if_neg (hoverwritten hbefore), Assoc.find?_erase, if_pos rfl]
    · rintro ⟨hbefore, hafter⟩
      rw [get?, Assoc.find?_insert, if_neg (hoverwritten hbefore), Assoc.find?_erase] at hafter
      split at hafter
      · next heq => rw [heq]
      · rw [get?, hafter] at hbefore
        cases hbefore

/-! ## The queue as a suffix of what entered -/

/-- Cutting off what is too old early changes nothing later. -/
theorem rtake_rtake_append {α : Type} (xs ys : List α) (n : Nat) :
    (xs.rtake n ++ ys).rtake n = (xs ++ ys).rtake n := by
  have hdrop : xs.rtake n ++ ys = (xs ++ ys).drop (xs.length - n) :=
    (List.drop_append_of_le_length (Nat.sub_le ..)).symm
  rw [hdrop, List.rtake, List.rtake, List.drop_drop, List.length_drop, List.length_append]
  congr 1
  omega

theorem rtake_of_length_le {α : Type} {xs : List α} {n : Nat} (h : xs.length ≤ n) :
    xs.rtake n = xs := by
  rw [List.rtake, Nat.sub_eq_zero_of_le h, List.drop_zero]

theorem arrival_insert (h : m.InStep) (key : Text) (e : Entry) :
    m.arrival (.insert key e) = if key ∈ m.order then [] else [key] := by
  simp only [arrival, h.mem_order_iff]
  cases m.get? key <;> rfl

/-- An insertion puts a new key at the end of the queue, and takes away what is too
    much at its front. -/
theorem InStep.order_insert (h : m.InStep) (key : Text) (e : Entry) :
    (m.insert key e).1.order = (m.order ++ m.arrival (.insert key e)).rtake m.capacity := by
  have hresult := h.insertion key e
  rw [arrival_insert h]
  generalize m.insert key e = result at hresult
  cases hresult with
  | ignored hzero => rw [hzero, List.rtake_zero, h.order_of_capacity_eq_zero hzero]
  | replaced _ hmem =>
    rw [if_pos hmem, List.append_nil, rtake_of_length_le h.length_le]
  | appended habsent hroom =>
    rw [if_neg habsent, rtake_of_length_le (by rw [List.length_append]; exact hroom)]
  | @evicting oldest order habsent horder hfull =>
    rw [if_neg habsent, List.rtake, List.length_append, hfull, List.length_singleton,
      Nat.add_sub_cancel_left, horder]
    rfl

theorem InStep.order_perform (h : m.InStep) {op : Operation} (hop : op ≠ .clear) :
    (m.perform op).order = (m.order ++ m.arrival op).rtake m.capacity := by
  cases op with
  | insert key e => exact h.order_insert key e
  | get key => rw [Memory.perform, arrival, List.append_nil, rtake_of_length_le h.length_le]
  | clear => exact absurd rfl hop

/-- Unless the tier is cleared, the queue holds the last keys that entered, behind those
    that were there. -/
theorem InStep.order_run (h : m.InStep) {ops : List Operation} (hops : .clear ∉ ops) :
    (m.run ops).order = (m.order ++ m.arrivals ops).rtake m.capacity := by
  induction ops generalizing m with
  | nil => rw [run_nil, arrivals, List.append_nil, rtake_of_length_le h.length_le]
  | cons op ops ih =>
    rw [List.mem_cons, not_or] at hops
    rw [run_cons, ih (h.perform op) hops.2, h.order_perform (Ne.symm hops.1), capacity_perform,
      rtake_rtake_append, arrivals, List.append_assoc]

/-! ## Presence -/

/-- The members of a suffix, told by what stands behind their last occurrence. -/
theorem mem_rtake_iff {xs : List Text} {x : Text} {n : Nat} :
    x ∈ xs.rtake n ↔ ∃ left right, xs = left ++ x :: right ∧ x ∉ right ∧ right.length < n := by
  constructor
  · intro hmem
    obtain ⟨behind, front, hreverse, hlast⟩ :=
      List.eq_append_cons_of_mem (List.mem_reverse.2 hmem)
    have hsuffix : xs.rtake n = front.reverse ++ x :: behind.reverse := by
      rw [← List.reverse_reverse (xs.rtake n), hreverse]
      simp
    have hlength : (xs.rtake n).length ≤ n := by
      rw [List.rtake, List.length_drop]
      omega
    refine ⟨xs.take (xs.length - n) ++ front.reverse, behind.reverse, ?_, by simpa using hlast, ?_⟩
    · rw [List.append_assoc, ← hsuffix, List.rtake, List.take_append_drop]
    · rw [hsuffix, List.length_append, List.length_cons] at hlength
      omega
  · rintro ⟨left, right, rfl, -, hshort⟩
    rw [List.rtake, List.drop_append_of_le_length]
    · simp
    · rw [List.length_append, List.length_cons]
      omega

/-- A key that entered was inserted while it was absent. -/
theorem exists_of_arrivals {ops : List Operation} {left right : List Text}
    (h : m.arrivals ops = left ++ key :: right) :
    ∃ before e behind, ops = before ++ .insert key e :: behind ∧ (m.run before).get? key = none ∧
      (m.run (before ++ [.insert key e])).arrivals behind = right := by
  induction ops generalizing m left with
  | nil => simp [arrivals] at h
  | cons op ops ih =>
    have hlater : ∀ left', (m.perform op).arrivals ops = left' ++ key :: right →
        ∃ before e behind, op :: ops = before ++ .insert key e :: behind ∧
          (m.run before).get? key = none ∧
          (m.run (before ++ [.insert key e])).arrivals behind = right := by
      intro left' htail
      obtain ⟨before, e, behind, rfl, habsent, hbehind⟩ := ih htail
      exact ⟨op :: before, e, behind, rfl, habsent, hbehind⟩
    cases op with
    | get k => exact hlater left h
    | clear => exact hlater left h
    | insert k e =>
      rw [arrivals, arrival] at h
      split at h
      · next hnone =>
        cases left with
        | nil =>
          obtain ⟨rfl, hright⟩ := List.cons.inj h
          exact ⟨[], e, ops, rfl, Option.isNone_iff_eq_none.1 hnone, hright⟩
        | cons first left => exact hlater left (List.cons.inj h).2
      · exact hlater left h

/-- What a history has done since it last cleared the tier. -/
theorem exists_since_clear (ops : List Operation) :
    ∃ old recent, ops = old ++ recent ∧ .clear ∉ recent ∧
      ∀ (c : Nat) (before : List Operation),
        (empty c).run (old ++ before) = (empty c).run before := by
  induction ops using List.reverseRecOn with
  | nil => exact ⟨[], [], rfl, List.not_mem_nil, fun _ _ => rfl⟩
  | append_singleton ops op ih =>
    obtain ⟨old, recent, rfl, hrecent, hstart⟩ := ih
    by_cases hop : op = .clear
    · subst hop
      refine ⟨old ++ recent ++ [.clear], [], by simp, List.not_mem_nil, fun c before => ?_⟩
      rw [List.append_assoc, List.singleton_append, run_clear]
    · exact ⟨old, recent ++ [op], List.append_assoc .., by simp [hrecent, Ne.symm hop], hstart⟩

/-- The presence of a key, told by the last time when it entered and by what has
    entered since. -/
theorem isSome_get?_run_iff (c : Nat) (ops : List Operation) (key : Text) :
    (((empty c).run ops).get? key).isSome = true ↔
      ∃ before e behind, ops = before ++ .insert key e :: behind ∧ .clear ∉ behind ∧
        ((empty c).run before).get? key = none ∧
        key ∉ ((empty c).run (before ++ [.insert key e])).arrivals behind ∧
        (((empty c).run (before ++ [.insert key e])).arrivals behind).length < c := by
  rw [← ((inStep_empty c).run ops).mem_order_iff]
  constructor
  · intro hmem
    obtain ⟨old, recent, rfl, hrecent, hstart⟩ := exists_since_clear ops
    rw [hstart, (inStep_empty c).order_run hrecent] at hmem
    obtain ⟨left, right, harrivals, hlast, hshort⟩ := mem_rtake_iff.1 hmem
    obtain ⟨before, e, behind, rfl, habsent, rfl⟩ := exists_of_arrivals harrivals
    refine ⟨old ++ before, e, behind, (List.append_assoc ..).symm, ?_, ?_, ?_⟩
    · exact fun hmem => hrecent (by simp [hmem])
    · rwa [hstart]
    · rw [List.append_assoc, hstart]
      exact ⟨hlast, hshort⟩
  · rintro ⟨before, e, behind, rfl, hclear, habsent, hlast, hshort⟩
    have hbefore := (inStep_empty c).run before
    have hentered : ((empty c).run (before ++ [.insert key e])).order =
        (((empty c).run before).order ++ [key]).rtake c := by
      have harrival : ((empty c).run before).arrival (.insert key e) = [key] := by
        simp [arrival, habsent]
      rw [run_append, ← harrival, run_cons, run_nil, hbefore.order_perform (by simp),
        capacity_run_empty]
    have hsplit : before ++ .insert key e :: behind = before ++ [.insert key e] ++ behind := by
      simp
    rw [hsplit, run_append, ((inStep_empty c).run _).order_run hclear, hentered,
      capacity_run_empty, rtake_rtake_append]
    exact mem_rtake_iff.2 ⟨_, _, List.append_assoc .., hlast, hshort⟩

/-! ## Entries -/

/-- A key holds the entry that was inserted last. -/
theorem exists_insert_of_get?_run {c : Nat} {ops : List Operation}
    (h : ((empty c).run ops).get? key = some e) :
    ∃ before behind, ops = before ++ .insert key e :: behind ∧ .clear ∉ behind ∧
      ∀ e', .insert key e' ∉ behind := by
  induction ops using List.reverseRecOn with
  | nil => cases h
  | append_singleton ops op ih =>
    have hops := (inStep_empty c).run ops
    rw [run_append, run_cons, run_nil] at h
    have hearlier : ((empty c).run ops).get? key = some e → op ≠ .clear →
        (∀ e', op ≠ .insert key e') →
        ∃ before behind, ops ++ [op] = before ++ .insert key e :: behind ∧ .clear ∉ behind ∧
          ∀ e', .insert key e' ∉ behind := by
      intro hget hclear hinsert
      obtain ⟨before, behind, rfl, hbehind, hlast⟩ := ih hget
      refine ⟨before, behind ++ [op], by simp, by simp [hbehind, Ne.symm hclear], fun e' => ?_⟩
      simp [hlast e', Ne.symm (hinsert e')]
    cases op with
    | get k => exact hearlier h (by simp) (by simp)
    | clear => cases h
    | insert k e' =>
      by_cases hzero : ((empty c).run ops).capacity = 0
      · have hnone := (hops.insert k e').get?_of_capacity_eq_zero
          ((capacity_insert _ k e').trans hzero) key
        cases hnone.symm.trans h
      by_cases hkey : k = key
      · subst hkey
        obtain rfl : e' = e := Option.some.inj ((get?_insert_self hzero k e').symm.trans h)
        exact ⟨ops, [], rfl, List.not_mem_nil, fun _ => List.not_mem_nil⟩
      · rcases get?_of_insert h with ⟨heq, -⟩ | hget
        · exact absurd heq hkey
        · exact hearlier hget (by simp) (by simp [hkey])

/-! ## The law -/

/-- After every history of a tier of capacity `c`, the queue lists the keys of the map,
    each once, and at most `c` of them. A key is present exactly if an insertion since
    the last clearing found it absent, no later one did, and fewer than `c` later ones
    found their key absent. It then holds the entry that was inserted last. A further
    insertion returns a key exactly if it removes the key. -/
theorem eviction_law (c : Nat) (ops : List Operation) :
    let m := (empty c).run ops
    m.order.Nodup ∧ m.order.Perm (Assoc.keys m.entries) ∧ m.capacity = c ∧ m.size ≤ c ∧
    (∀ key, (m.get? key).isSome = true ↔
      ∃ before e behind, ops = before ++ .insert key e :: behind ∧ .clear ∉ behind ∧
        ((empty c).run before).get? key = none ∧
        key ∉ ((empty c).run (before ++ [.insert key e])).arrivals behind ∧
        (((empty c).run (before ++ [.insert key e])).arrivals behind).length < c) ∧
    (∀ key e, m.get? key = some e →
      ∃ before behind, ops = before ++ .insert key e :: behind ∧ .clear ∉ behind ∧
        ∀ e', .insert key e' ∉ behind) ∧
    ∀ key e k, (m.insert key e).2 = some k ↔
      (m.get? k).isSome = true ∧ (m.insert key e).1.get? k = none := by
  intro m
  have hm : m.InStep := (inStep_empty c).run ops
  have hcapacity : m.capacity = c := capacity_run_empty c ops
  exact ⟨hm.nodup, hm.perm, hcapacity, hm.length_order ▸ hcapacity ▸ hm.length_le,
    isSome_get?_run_iff c ops, fun _ _ => exists_insert_of_get?_run,
    fun _ _ _ => hm.insert_eq_some_iff⟩

/-- A key that is inserted again while it is present, pushed out by a third key, and
    inserted once more. -/
def reentry : List Operation :=
  [.insert "a" ⟨[], none, 1, .null⟩, .insert "b" ⟨[], none, 2, .null⟩, .get "a",
    .insert "a" ⟨[], none, 3, .null⟩, .insert "c" ⟨[], none, 4, .null⟩,
    .insert "a" ⟨[], none, 5, .null⟩]

/-- The second insertion does not save the key from eviction, and the last one puts it
    at the end of the queue. -/
theorem eviction_law_reentry :
    let m := (empty 2).run reentry
    m.order = ["c".toList, "a".toList] ∧ m.order.Nodup ∧ m.size ≤ 2 ∧
    (∃ before e behind, reentry = before ++ .insert "a" e :: behind ∧
      ((empty 2).run before).get? "a" = none ∧
      (((empty 2).run (before ++ [.insert "a" e])).arrivals behind).length < 2) ∧
    (∃ before behind, reentry = before ++ .insert "a" ⟨[], none, 5, .null⟩ :: behind ∧
      ∀ e', .insert "a" e' ∉ behind) ∧
    (m.insert "d" ⟨[], none, 6, .null⟩).1.get? "c" = none := by
  intro m
  have hget : m.get? "a" = some ⟨[], none, 5, .null⟩ := rfl
  obtain ⟨hnodup, -, -, hsize, hpresent, hlatest, hevicted⟩ := eviction_law 2 reentry
  obtain ⟨before, e, behind, hops, -, habsent, -, hshort⟩ :=
    (hpresent "a").1 (Option.isSome_of_mem hget)
  obtain ⟨before', behind', hops', -, hlast⟩ := hlatest "a" _ hget
  exact ⟨rfl, hnodup, hsize, ⟨before, e, behind, hops, habsent, hshort⟩,
    ⟨before', behind', hops', hlast⟩, ((hevicted "d" ⟨[], none, 6, .null⟩ "c").1 rfl).2⟩

end Memory
end BanglaSource

import PicoDB.Utils

/-!
# PicoDB.Vector — `ConcurrentVector.h`

Every operation is one atomic step here, on the list of the elements; all but
`remove` take the lock of the vector (their single steps are in
`PicoDB.VectorCalls`). `pop` and `peek` look at the back, `push_back` adds
there. `remove` walks over the indices and erases while it walks, which skips
the element behind every erased one (`sweep`). So it takes out all that it is
to take out exactly when no two neighbours are to go (`removal_complete_iff`).
-/

namespace PicoDB

/-- A `std::shared_ptr`. Its `operator==` compares addresses. -/
structure SharedPtr (α : Type) where
  addr : Nat
  val : α
deriving DecidableEq, Repr

namespace ConcurrentVector

variable {α : Type}

/-- `push_back`. -/
def pushBack (msg : α) (underlying_list : List α) : List α := underlying_list ++ [msg]

/-- `pop`: the last element, or an empty one. -/
def pop (underlying_list : List α) : Option α × List α :=
  (underlying_list.getLast?, underlying_list.dropLast)

/-- `peek`: the last element; an empty one also when the lock is taken. -/
def peek (locked : Bool) (underlying_list : List α) : Option α :=
  if locked then underlying_list.getLast? else none

theorem mem_of_peek {locked : Bool} {underlying_list : List α} {x : α}
    (h : peek locked underlying_list = some x) : x ∈ underlying_list := by
  unfold peek at h
  split at h
  · exact List.mem_of_getLast? h
  · cases h

/-- One turn of the loop in `remove`. -/
def removeAt (isElement : α → Bool) (l : List α) (i : Nat) : List α :=
  if l[i]?.any isElement then l.eraseIdx i else l

/-- `remove`. -/
def remove (isElement : α → Bool) (underlying_list : List α) : List α :=
  (List.range underlying_list.length).foldl (removeAt isElement) underlying_list

/-- What `remove` keeps: the elements that differ, and whatever stands behind
one that does not. -/
def sweep (isElement : α → Bool) : List α → List α
  | [] => []
  | x :: xs =>
    if isElement x then
      match xs with
      | [] => []
      | y :: ys => y :: sweep isElement ys
    else x :: sweep isElement xs

theorem sweep_cons_of_neg {isElement : α → Bool} {x : α} (h : isElement x = false) (xs : List α) :
    sweep isElement (x :: xs) = x :: sweep isElement xs := by
  conv_lhs => rw [sweep.eq_def]
  simp [h]

theorem sweep_singleton_of_pos {isElement : α → Bool} {x : α} (h : isElement x = true) :
    sweep isElement [x] = [] := by
  simp [sweep, h]

theorem sweep_cons_cons_of_pos {isElement : α → Bool} {x : α} (h : isElement x = true) (y : α)
    (ys : List α) : sweep isElement (x :: y :: ys) = y :: sweep isElement ys := by
  conv_lhs => rw [sweep.eq_def]
  simp [h]

/-- Past the end the loop does nothing. -/
theorem foldl_removeAt_of_le (isElement : α → Bool) (n : Nat) {i : Nat} {l : List α}
    (h : l.length ≤ i) : (List.range' i n).foldl (removeAt isElement) l = l := by
  induction n generalizing i with
  | zero => rfl
  | succ n ih =>
    have hnone : removeAt isElement l i = l := by
      rw [removeAt, List.getElem?_eq_none h]
      rfl
    rw [List.range'_succ, List.foldl_cons, hnone]
    exact ih (by omega)

/-- The loop from where it stands: what is behind it stays, what is ahead is
swept. -/
theorem foldl_removeAt (isElement : α → Bool) (n : Nat) (done : List α) (l : List α)
    (h : l.length ≤ n) :
    (List.range' done.length n).foldl (removeAt isElement) (done ++ l) =
      done ++ sweep isElement l := by
  induction n generalizing done l with
  | zero =>
    rw [List.length_eq_zero_iff.mp (by omega : l.length = 0)]
    simp [sweep]
  | succ n ih =>
    cases l with
    | nil => rw [List.append_nil, foldl_removeAt_of_le isElement _ (le_refl _)]; simp [sweep]
    | cons x xs =>
      have hat : (done ++ x :: xs)[done.length]? = some x := by simp
      rw [List.range'_succ, List.foldl_cons]
      cases hx : isElement x with
      | true =>
        -- `x` is erased, the next one takes its place and is passed over
        have hstep : removeAt isElement (done ++ x :: xs) done.length = done ++ xs := by
          rw [removeAt, hat]
          simp [hx, List.eraseIdx_append_of_length_le]
        rw [hstep]
        cases xs with
        | nil =>
          rw [List.append_nil, foldl_removeAt_of_le isElement _ (by omega),
            sweep_singleton_of_pos hx, List.append_nil]
        | cons y ys =>
          have h' := ih (done ++ [y]) ys (by simp only [List.length_cons] at h; omega)
          rw [List.length_append, List.length_singleton, List.append_assoc,
            List.singleton_append] at h'
          rw [h', sweep_cons_cons_of_pos hx, List.append_assoc, List.singleton_append]
      | false =>
        have hstep : removeAt isElement (done ++ x :: xs) done.length = done ++ x :: xs := by
          rw [removeAt, hat]
          simp [hx]
        have h' := ih (done ++ [x]) xs (by simp only [List.length_cons] at h; omega)
        rw [List.length_append, List.length_singleton, List.append_assoc,
          List.singleton_append] at h'
        rw [hstep, h', sweep_cons_of_neg hx, List.append_assoc, List.singleton_append]

theorem remove_eq_sweep (isElement : α → Bool) (l : List α) :
    remove isElement l = sweep isElement l := by
  have h := foldl_removeAt isElement l.length [] l (le_refl _)
  rwa [List.length_nil, List.nil_append, List.nil_append, ← List.range_eq_range'] at h

/-- Behind an element that is kept, the loop goes on as if there were none. -/
theorem isChain_cons_of_neg {isElement : α → Bool} {x : α} (h : isElement x = false) (l : List α) :
    (x :: l).IsChain (fun x y => ¬ (isElement x = true ∧ isElement y = true)) ↔
      l.IsChain fun x y => ¬ (isElement x = true ∧ isElement y = true) := by
  rw [List.isChain_cons]
  constructor
  · exact And.right
  · intro hl
    exact ⟨fun y _ hxy => by simp [h] at hxy, hl⟩

/-- What differs is kept, each once and in order, whatever else is left. -/
theorem filter_sweep (isElement : α → Bool) (l : List α) :
    (sweep isElement l).filter (fun x => !isElement x) = l.filter fun x => !isElement x := by
  fun_induction sweep isElement l with
  | case1 => rfl
  | case2 x hx => simp [hx]
  | case3 x hx y ys ih =>
    rw [List.filter_cons_of_neg (l := y :: ys) (by simp [hx]), List.filter_cons, List.filter_cons,
      ih]
  | case4 x xs hx ih => rw [List.filter_cons, List.filter_cons, ih]

/-- Nothing is left of the element exactly when it never stands behind itself. -/
theorem forall_sweep_iff (isElement : α → Bool) (l : List α) :
    (∀ x ∈ sweep isElement l, isElement x = false) ↔
      l.IsChain fun x y => ¬ (isElement x = true ∧ isElement y = true) := by
  fun_induction sweep isElement l with
  | case1 => simp
  | case2 x hx => simp
  | case3 x hx y ys ih =>
    -- `x` goes and `y` stays, whatever it is
    rw [List.forall_mem_cons, ih, List.isChain_cons_cons]
    constructor
    · intro h
      exact ⟨fun hxy => by simp [h.1] at hxy, (isChain_cons_of_neg h.1 ys).mpr h.2⟩
    · intro h
      have hy : isElement y = false := by simpa [hx] using h.1
      exact ⟨hy, (isChain_cons_of_neg hy ys).mp h.2⟩
  | case4 x xs hx ih =>
    have hx' : isElement x = false := by simpa using hx
    rw [List.forall_mem_cons, ih, isChain_cons_of_neg hx']
    exact and_iff_right hx'

theorem remove_eq_filter_iff (isElement : α → Bool) (l : List α) :
    remove isElement l = l.filter (fun x => !isElement x) ↔
      l.IsChain fun x y => ¬ (isElement x = true ∧ isElement y = true) := by
  rw [← forall_sweep_iff, remove_eq_sweep]
  constructor
  · intro h x hx
    rw [h, List.mem_filter] at hx
    simpa using hx.2
  · intro h
    have hself : (sweep isElement l).filter (fun x => !isElement x) = sweep isElement l := by
      rw [List.filter_eq_self]
      exact fun x hx => by simp [h x hx]
    rw [← hself, filter_sweep]

/-- **`remove` of an element that is there at most once** takes it out and
leaves the others in their order. -/
theorem remove_eq_filter {isElement : α → Bool} {l : List α}
    (h : l.Pairwise fun x y => ¬ (isElement x = true ∧ isElement y = true)) :
    remove isElement l = l.filter fun x => !isElement x :=
  (remove_eq_filter_iff isElement l).mpr h.isChain

/-- The elements are told apart by `f`, as pointers are by their addresses. -/
theorem remove_eq_filter_of_nodup {β : Type} [BEq β] [LawfulBEq β] (f : α → β) (b : β)
    {l : List α} (h : (l.map f).Nodup) :
    remove (fun x => f x == b) l = l.filter fun x => !(f x == b) := by
  refine remove_eq_filter ?_
  rw [List.nodup_iff_pairwise_ne, List.pairwise_map] at h
  refine h.imp ?_
  rintro x y hne ⟨hx, hy⟩
  exact hne ((eq_of_beq hx).trans (eq_of_beq hy).symm)

end ConcurrentVector

/-! ## The list the vector replaced -/

/-- `remove` of `pico_concurrent_listModified`, which is that of `std::list`. -/
def PicoConcurrentListModified.remove {α : Type} [BEq α] (element : α) (underlying_list : List α) :
    List α :=
  if 0 < underlying_list.length then underlying_list.filter fun x => !(x == element)
  else underlying_list

theorem PicoConcurrentListModified.remove_eq {α : Type} [BEq α] (element : α) (l : List α) :
    remove element l = l.filter fun x => !(x == element) := by
  unfold remove
  split
  · rfl
  · rename_i h
    rw [List.length_eq_zero_iff.mp (by omega : l.length = 0)]
    rfl

namespace ConcurrentVector

/-- **Removal.** `remove` takes out every element that is equal to the given
one, and gives what the list gave, exactly when no two neighbours are both
equal to it. -/
theorem removal_complete_iff {α : Type} [BEq α] (element : α) (l : List α) :
    (remove (· == element) l = l.filter (fun x => !(x == element)) ∧
        remove (· == element) l = PicoConcurrentListModified.remove element l) ↔
      l.IsChain fun x y => ¬ ((x == element) = true ∧ (y == element) = true) := by
  rw [PicoConcurrentListModified.remove_eq, and_self]
  exact remove_eq_filter_iff (· == element) l

/-- Of two equal neighbours the second one stays. -/
theorem second_of_two_stays :
    remove (· == 7) [7, 7, 8] = [7, 8] ∧
      PicoConcurrentListModified.remove 7 [7, 7, 8] = [8] ∧
      remove (· == 7) [7, 7, 8] ≠ [7, 7, 8].filter fun x => !(x == 7) := by
  decide

end ConcurrentVector

end PicoDB

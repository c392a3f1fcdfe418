import PicoDB.VectorCalls

/-!
# PicoDB.VectorElements — where the elements of a `ConcurrentVector` go

A sequential order of the calls says of every element which `push_back` brought it in
and which `pop`, if any, took it out (`Matched`, kept by each kind of call). Read back
in the history this is `each_element_once`: whatever the threads do, nothing is lost and
nothing comes twice.
-/

namespace PicoDB.ConcurrentVector

open Linearization Lts

variable {α T : Type}

/-! ## In a sequential order -/

/-- What is in the vector, with the calls that pushed it, and for every `pop` the
`push_back` of what it took out. -/
structure Matched (l : List (Entry Nat (Op α) (Option α))) (underlying_list : List α)
    (owned : List (Nat × α)) (source : Nat → Nat) : Prop where
  content : owned.map Prod.snd = underlying_list
  nodup : (owned.map Prod.fst).Nodup
  pushed : ∀ p ∈ owned, ⟨p.1, .push_back p.2, none⟩ ∈ l
  popped : ∀ i msg, ⟨i, .pop, some msg⟩ ∈ l →
    List.Sublist [⟨source i, .push_back msg, none⟩, ⟨i, .pop, some msg⟩] l ∧
      source i ∉ owned.map Prod.fst
  apart : ∀ i j msg msg', ⟨i, .pop, some msg⟩ ∈ l → ⟨j, .pop, some msg'⟩ ∈ l →
    source i = source j → i = j
  kept : ∀ i msg, ⟨i, .push_back msg, none⟩ ∈ l →
    (i, msg) ∈ owned ∨ ∃ j, ⟨j, .pop, some msg⟩ ∈ l ∧ source j = i

theorem mem_of_mem_concat {l : List (Entry Nat (Op α) (Option α))}
    {e x : Entry Nat (Op α) (Option α)} (hx : x ∈ l ++ [e]) (hop : x.op ≠ e.op) : x ∈ l := by
  rcases List.mem_append.mp hx with hx | hx
  · exact hx
  · rw [List.mem_singleton.mp hx] at hop
    exact absurd rfl hop

variable {l : List (Entry Nat (Op α) (Option α))} {underlying_list : List α}
  {owned : List (Nat × α)} {source : Nat → Nat}

/-- A call that does not touch the vector. -/
theorem Matched.idle (h : Matched l underlying_list owned source)
    {e : Entry Nat (Op α) (Option α)} (hpush : ∀ msg, e.op ≠ .push_back msg)
    (hpop : e.op = .pop → e.res = none) : Matched (l ++ [e]) underlying_list owned source := by
  have hpops : ∀ i msg, ⟨i, .pop, some msg⟩ ∈ l ++ [e] → ⟨i, .pop, some msg⟩ ∈ l := by
    intro i msg hx
    rcases List.mem_append.mp hx with hx | hx
    · exact hx
    · obtain rfl := List.mem_singleton.mp hx
      cases hpop rfl
  have hpushes : ∀ i msg, ⟨i, .push_back msg, none⟩ ∈ l ++ [e] → ⟨i, .push_back msg, none⟩ ∈ l :=
    fun i msg hx => mem_of_mem_concat hx (hpush msg).symm
  constructor
  · exact h.content
  · exact h.nodup
  · exact fun p hp => List.mem_append_left _ (h.pushed p hp)
  · intro i msg hx
    obtain ⟨hsub, hnot⟩ := h.popped i msg (hpops i msg hx)
    exact ⟨hsub.trans (List.sublist_append_left l [e]), hnot⟩
  · exact fun i j msg msg' hi hj => h.apart i j msg msg' (hpops i msg hi) (hpops j msg' hj)
  · intro i msg hx
    rcases h.kept i msg (hpushes i msg hx) with hin | ⟨j, hj, heq⟩
    · exact Or.inl hin
    · exact Or.inr ⟨j, List.mem_append_left _ hj, heq⟩

/-- An element comes in. -/
theorem Matched.push (h : Matched l underlying_list owned source) {i : Nat} (msg : α)
    (hnew : ∀ e ∈ l, e.id ≠ i) :
    Matched (l ++ [⟨i, .push_back msg, none⟩]) (underlying_list ++ [msg]) (owned ++ [(i, msg)])
      source := by
  have hpops : ∀ j m, (⟨j, .pop, some m⟩ : Entry Nat (Op α) (Option α)) ∈
      l ++ [⟨i, .push_back msg, none⟩] → ⟨j, .pop, some m⟩ ∈ l :=
    fun j m hx => mem_of_mem_concat hx nofun
  constructor
  · rw [List.map_append, h.content]
    rfl
  · rw [List.map_append]
    refine h.nodup.append (List.nodup_singleton i) (List.disjoint_singleton.mpr fun hmem => ?_)
    obtain ⟨p, hp, heq⟩ := List.mem_map.mp hmem
    exact hnew _ (h.pushed p hp) heq
  · intro p hp
    rcases List.mem_append.mp hp with hp | hp
    · exact List.mem_append_left _ (h.pushed p hp)
    · rw [List.mem_singleton.mp hp]
      exact List.mem_append_right _ (List.mem_singleton_self _)
  · intro j m hx
    obtain ⟨hsub, hnot⟩ := h.popped j m (hpops j m hx)
    refine ⟨hsub.trans (List.sublist_append_left l _), fun hmem => ?_⟩
    rw [List.map_append] at hmem
    rcases List.mem_append.mp hmem with hmem | hmem
    · exact hnot hmem
    · exact hnew _ (hsub.subset List.mem_cons_self) (List.mem_singleton.mp hmem)
  · exact fun j k m m' hj hk => h.apart j k m m' (hpops j m hj) (hpops k m' hk)
  · intro j m hx
    rcases List.mem_append.mp hx with hx | hx
    · rcases h.kept j m hx with hin | ⟨k, hk, heq⟩
      · exact Or.inl (List.mem_append_left _ hin)
      · exact Or.inr ⟨k, List.mem_append_left _ hk, heq⟩
    · cases List.mem_singleton.mp hx
      exact Or.inl (List.mem_append_right _ (List.mem_singleton_self _))

/-- The last element is taken out. -/
theorem Matched.pop {i o : Nat} {msg : α} (h : Matched l (underlying_list ++ [msg])
    (owned ++ [(o, msg)]) source) (hnew : ∀ e ∈ l, e.id ≠ i) :
    Matched (l ++ [⟨i, .pop, some msg⟩]) underlying_list owned (Function.update source i o) := by
  have hold : ∀ j m, ⟨j, .pop, some m⟩ ∈ l → Function.update source i o j = source j :=
    fun j m hj => Function.update_of_ne (hnew _ hj) _ _
  have hcases : ∀ j m, (⟨j, .pop, some m⟩ : Entry Nat (Op α) (Option α)) ∈
      l ++ [⟨i, .pop, some msg⟩] → ⟨j, .pop, some m⟩ ∈ l ∨ j = i ∧ m = msg := by
    intro j m hx
    rcases List.mem_append.mp hx with hx | hx
    · exact Or.inl hx
    · cases List.mem_singleton.mp hx
      exact Or.inr ⟨rfl, rfl⟩
  have hlast : (o, msg) ∈ owned ++ [(o, msg)] := List.mem_append_right _ (List.mem_singleton_self _)
  have hpush : ⟨o, .push_back msg, none⟩ ∈ l := h.pushed _ hlast
  have hnodups := h.nodup
  rw [List.map_append] at hnodups
  obtain ⟨hfst, -, hdisjoint⟩ := List.nodup_append.mp hnodups
  -- the element taken out was nobody's before
  have hfree : ∀ j m, ⟨j, .pop, some m⟩ ∈ l → source j ≠ o := by
    intro j m hj heq
    refine (h.popped j m hj).2 ?_
    rw [heq]
    exact List.mem_map.mpr ⟨_, hlast, rfl⟩
  constructor
  · have hcontent := h.content
    rw [List.map_append] at hcontent
    exact (List.append_inj' hcontent rfl).1
  · exact hfst
  · exact fun p hp => List.mem_append_left _ (h.pushed p (List.mem_append_left _ hp))
  · intro j m hx
    rcases hcases j m hx with hj | ⟨rfl, rfl⟩
    · obtain ⟨hsub, hnot⟩ := h.popped j m hj
      rw [hold j m hj]
      refine ⟨hsub.trans (List.sublist_append_left l _), fun hmem => hnot ?_⟩
      rw [List.map_append]
      exact List.mem_append_left _ hmem
    · rw [Function.update_self]
      refine ⟨pair_sublist_concat.mpr (Or.inr ⟨hpush, rfl⟩), fun hmem => ?_⟩
      exact hdisjoint o hmem o (List.mem_singleton_self o) rfl
  · intro j k m m' hj hk heq
    rcases hcases j m hj with hjl | ⟨hji, -⟩
    · rcases hcases k m' hk with hkl | ⟨hki, -⟩
      · rw [hold j m hjl, hold k m' hkl] at heq
        exact h.apart j k m m' hjl hkl heq
      · rw [hold j m hjl, hki, Function.update_self] at heq
        exact absurd heq (hfree j m hjl)
    · rcases hcases k m' hk with hkl | ⟨hki, -⟩
      · rw [hold k m' hkl, hji, Function.update_self] at heq
        exact absurd heq.symm (hfree k m' hkl)
      · rw [hji, hki]
  · intro j m hx
    have hj : ⟨j, .push_back m, none⟩ ∈ l := mem_of_mem_concat hx nofun
    rcases h.kept j m hj with hin | ⟨k, hk, heq⟩
    · rcases List.mem_append.mp hin with hin | hin
      · exact Or.inl hin
      · cases List.mem_singleton.mp hin
        exact Or.inr ⟨i, List.mem_append_right _ (List.mem_singleton_self _),
          Function.update_self _ _ _⟩
    · exact Or.inr ⟨k, List.mem_append_left _ hk, (hold k m hk).trans heq⟩

/-- Every legal order can be matched. -/
theorem exists_matched {h : List (Event Nat (Op α) (Option α))}
    (hlegal : Legal (Effect h) [] l underlying_list) (hnodup : (l.map Entry.id).Nodup) :
    ∃ owned source, Matched l underlying_list owned source := by
  induction hlegal with
  | nil => exact ⟨[], id, rfl, List.nodup_nil, nofun, nofun, nofun, nofun⟩
  | @concat l e s s' _ he ih =>
    rw [List.map_append] at hnodup
    obtain ⟨hbefore, -, hdisjoint⟩ := List.nodup_append.mp hnodup
    have hnew : ∀ x ∈ l, x.id ≠ e.id := fun x hx =>
      hdisjoint _ (List.mem_map_of_mem hx) _ (List.mem_singleton_self _)
    obtain ⟨owned, source, hm⟩ := ih hbefore
    obtain ⟨i, op, res⟩ := e
    cases op with
    | push_back msg =>
      obtain ⟨hres, rfl⟩ := he
      cases hres
      exact ⟨_, _, hm.push msg hnew⟩
    | pop =>
      obtain ⟨rfl, rfl⟩ := Prod.mk.inj he
      rcases List.eq_nil_or_concat owned with rfl | ⟨owned, ⟨o, msg⟩, rfl⟩
      · have hnil : s = [] := hm.content.symm
        subst hnil
        exact ⟨_, _, hm.idle nofun fun _ => rfl⟩
      · have hcontent := hm.content
        rw [List.concat_eq_append] at hm hcontent
        rw [List.map_append] at hcontent
        rw [← hcontent] at hm ⊢
        refine ⟨owned, Function.update source i o, ?_⟩
        have hpop := hm.pop hnew
        simpa using hpop
    | peek =>
      obtain ⟨rfl, -⟩ := he
      exact ⟨_, _, hm.idle nofun nofun⟩

/-! ## In a history -/

/-- The same, as the callers see it: `owned` is what is in the vector, with the calls
that pushed it, and `source` gives for every `pop` the `push_back` of what it took out. -/
structure Conserved (h : List (Event Nat (Op α) (Option α))) (underlying_list : List α)
    (owned : List (Nat × α)) (source : Nat → Nat) : Prop where
  content : owned.map Prod.snd = underlying_list
  nodup : (owned.map Prod.fst).Nodup
  pushed : ∀ p ∈ owned, .call p.1 (.push_back p.2) ∈ h
  popped : ∀ i msg, .call i .pop ∈ h → .ret i (some msg) ∈ h →
    .call (source i) (.push_back msg) ∈ h ∧ source i ∉ owned.map Prod.fst ∧
      ¬ Precedes h i (source i)
  apart : ∀ i j msg msg', .call i .pop ∈ h → .ret i (some msg) ∈ h → .call j .pop ∈ h →
    .ret j (some msg') ∈ h → source i = source j → i = j
  kept : ∀ i msg, .call i (.push_back msg) ∈ h → .ret i none ∈ h →
    (i, msg) ∈ owned ∨
      ∃ j, .call j .pop ∈ h ∧ source j = i ∧ ∀ res, .ret j res ∈ h → res = some msg

variable [DecidableEq T]

/-- **Nothing is lost, nothing comes twice.** In every reachable state each element in the
vector is there through a `push_back` of its own. Each `pop` that returned one has it
from a `push_back` of its own that was not made later, and whose element is not there
any more. And each `push_back` that returned has its element in the vector, or some
`pop` has taken it out and returns nothing else. -/
theorem each_element_once {s : State α T} (h : Reachable (vector α T) s) :
    ∃ owned source, Conserved s.history s.underlying_list owned source := by
  have hl := (inv_of_reachable h).linear
  obtain ⟨owned, source, hm⟩ := exists_matched hl.legal hl.nodup
  -- what has returned is in the order, with the operation it was called for
  have hentry : ∀ i op res, .call i op ∈ s.history → .ret i res ∈ s.history →
      ⟨i, op, res⟩ ∈ s.effects := by
    intro i op res hcall hret
    obtain ⟨op', he⟩ := hl.returned i res hret
    rwa [hl.op_unique hcall (hl.called _ he)]
  refine ⟨owned, source, hm.content, hm.nodup, fun p hp => hl.called _ (hm.pushed p hp),
    fun i msg hcall hret => ?_, fun i j msg msg' hi hri hj hrj => ?_,
    fun i msg hcall hret => ?_⟩
  · obtain ⟨hsub, hnot⟩ := hm.popped i msg (hentry i .pop (some msg) hcall hret)
    exact ⟨hl.called _ (hsub.subset List.mem_cons_self), hnot, hl.not_precedes hsub⟩
  · exact hm.apart i j msg msg' (hentry i .pop (some msg) hi hri) (hentry j .pop (some msg') hj hrj)
  · rcases hm.kept i msg (hentry i _ none hcall hret) with hin | ⟨j, hj, hsource⟩
    · exact Or.inl hin
    · refine Or.inr ⟨j, hl.called _ hj, hsource, fun res hres => ?_⟩
      obtain ⟨op, he⟩ := hl.returned j res hres
      have heq := hl.entry_unique he hj rfl
      cases heq
      rfl

theorem each_element_once_peeksTooEarly :
    let s := after (vector Nat Bool) peeksTooEarly {}
    s.underlying_list = [] ∧
      ∃ i, .call i (.push_back 7) ∈ s.history ∧ ¬ Precedes s.history 2 i := by
  obtain ⟨owned, source, hc⟩ := each_element_once peeksTooEarly_reachable
  obtain ⟨hcall, -, hp⟩ := hc.popped 2 7 (by decide +kernel) (by decide +kernel)
  exact ⟨by decide +kernel, source 2, hcall, hp⟩

end PicoDB.ConcurrentVector

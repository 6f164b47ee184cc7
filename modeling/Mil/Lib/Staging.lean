import Mathlib.Data.List.Basic
import Mathlib.Data.List.Induction
import Mathlib.Logic.Function.Basic

/-!
# Staging: runs that read slots while loads fill them

A host issues two kinds of work to a device. A *run* reads one slot and expects a content there;
it first waits for some loads. A *load* puts a content in a slot; it may take effect as soon as a
given number of runs has been done, and it is over when a run that waits for it starts. The runs
are done in the order of their issue; the loads land at any time between these two bounds, in any
order.

`Staged` is a discipline of the host, checked at each issue against what was issued before. Under
it every run reads what it expects, in every execution of the device (`Staged.reads`), and no load
lands in a slot that a later run reads once the content for that run is there
(`Staged.not_landed`).
-/

set_option autoImplicit false

namespace Mil.Lib.Staging

variable {σ β : Type}

/-- A run reads `slot` and expects `content` there, after waiting for the loads `waits`, given by
their numbers. -/
structure Run (σ β : Type) where
  content : β
  slot : σ
  waits : List Nat

/-- A load puts `content` in `slot`, not before `after` runs have been done. -/
structure Load (σ β : Type) where
  content : β
  slot : σ
  after : Nat

/-- What the host has issued, in the order of issue. -/
structure Trace (σ β : Type) where
  runs : List (Run σ β)
  loads : List (Load σ β)

def Trace.empty : Trace σ β := ⟨[], []⟩

def Trace.addRun (T : Trace σ β) (r : Run σ β) : Trace σ β := ⟨T.runs ++ [r], T.loads⟩

def Trace.addLoad (T : Trace σ β) (l : Load σ β) : Trace σ β := ⟨T.runs, T.loads ++ [l]⟩

/-- The content a slot gets from the loads issued so far. -/
def Trace.issued [DecidableEq σ] (start : σ → Option β) (T : Trace σ β) : σ → Option β :=
  T.loads.foldl (fun f l => Function.update f l.slot (some l.content)) start

/-- One of the first `u` runs waits for load `k`. -/
def Trace.Awaited (T : Trace σ β) (k u : Nat) : Prop :=
  ∃ t r, t < u ∧ T.runs[t]? = some r ∧ k ∈ r.waits

/-- From the moment `u` runs are done nothing issued so far touches the slot `p` any more. -/
structure Trace.Clear (T : Trace σ β) (p : σ) (u : Nat) : Prop where
  runs : ∀ t r, T.runs[t]? = some r → r.slot = p → t < u
  loads : ∀ k l, T.loads[k]? = some l → l.slot = p → T.Awaited k u

/-- The slot `p` holds `c` for a run that waits for the loads `waits`: the last load into `p` puts
`c` there, and each load into `p` is waited for. -/
structure Trace.Holds [DecidableEq σ] (start : σ → Option β) (T : Trace σ β) (p : σ) (c : β)
    (waits : List Nat) : Prop where
  content : T.issued start p = some c
  loads : ∀ k l, T.loads[k]? = some l → l.slot = p → T.Awaited k T.runs.length ∨ k ∈ waits

/-- The host issues a run only when its slot holds what the run expects, and a load only into a
slot that is clear once the load may take effect. -/
inductive Staged [DecidableEq σ] (start : σ → Option β) : Trace σ β → Prop
  | empty : Staged start .empty
  | run {T : Trace σ β} (r : Run σ β) :
      Staged start T → T.Holds start r.slot r.content r.waits → Staged start (T.addRun r)
  | load {T : Trace σ β} (l : Load σ β) :
      Staged start T → T.Clear l.slot l.after → Staged start (T.addLoad l)

/-! ## Issuing a run and a load -/

@[simp] theorem Trace.length_addRun (T : Trace σ β) (r : Run σ β) :
    (T.addRun r).runs.length = T.runs.length + 1 := by
  simp [addRun]

@[simp] theorem Trace.issued_addLoad [DecidableEq σ] (start : σ → Option β) (T : Trace σ β)
    (l : Load σ β) :
    (T.addLoad l).issued start = Function.update (T.issued start) l.slot (some l.content) := by
  simp only [issued, addLoad, List.foldl_append, List.foldl_cons, List.foldl_nil]

theorem getElem?_concat_iff {α : Type} {xs : List α} {x y : α} {t : Nat} :
    (xs ++ [x])[t]? = some y ↔ xs[t]? = some y ∨ t = xs.length ∧ y = x := by
  rw [List.getElem?_append]
  split
  · rename_i h
    exact ⟨Or.inl, fun | .inl h => h | .inr ⟨ht, _⟩ => absurd ht (Nat.ne_of_lt h)⟩
  · rename_i h
    rw [List.getElem?_eq_none (Nat.le_of_not_lt h), List.getElem?_singleton]
    constructor
    · intro hr
      split at hr
      · exact .inr ⟨by omega, (Option.some.inj hr).symm⟩
      · cases hr
    · rintro (hr | ⟨rfl, rfl⟩)
      · cases hr
      · rw [if_pos (Nat.sub_self _)]

theorem Trace.runs_addRun {T : Trace σ β} {r r' : Run σ β} {t : Nat} :
    (T.addRun r).runs[t]? = some r' ↔ T.runs[t]? = some r' ∨ t = T.runs.length ∧ r' = r :=
  getElem?_concat_iff

theorem Trace.loads_addLoad {T : Trace σ β} {l l' : Load σ β} {k : Nat} :
    (T.addLoad l).loads[k]? = some l' ↔ T.loads[k]? = some l' ∨ k = T.loads.length ∧ l' = l :=
  getElem?_concat_iff

theorem Trace.Awaited.mono {T : Trace σ β} {k u v : Nat} (h : T.Awaited k u) (huv : u ≤ v) :
    T.Awaited k v := by
  obtain ⟨t, r, ht, hr, hk⟩ := h
  exact ⟨t, r, Nat.lt_of_lt_of_le ht huv, hr, hk⟩

theorem Trace.Awaited.addRun {T : Trace σ β} {k u : Nat} (h : T.Awaited k u) (r : Run σ β) :
    (T.addRun r).Awaited k u := by
  obtain ⟨t, r', ht, hr, hk⟩ := h
  exact ⟨t, r', ht, Trace.runs_addRun.mpr (.inl hr), hk⟩

theorem Trace.awaited_addRun_of_mem {T : Trace σ β} {k : Nat} {r : Run σ β} (hk : k ∈ r.waits) :
    (T.addRun r).Awaited k (T.runs.length + 1) :=
  ⟨_, r, Nat.lt_succ_self _, Trace.runs_addRun.mpr (.inr ⟨rfl, rfl⟩), hk⟩

theorem Trace.Clear.mono {T : Trace σ β} {p : σ} {u v : Nat} (h : T.Clear p u) (huv : u ≤ v) :
    T.Clear p v :=
  ⟨fun t r hr hp => Nat.lt_of_lt_of_le (h.runs t r hr hp) huv,
    fun k l hl hp => (h.loads k l hl hp).mono huv⟩

/-- A run that reads another slot leaves a slot clear. -/
theorem Trace.Clear.addRun {T : Trace σ β} {p : σ} {u : Nat} (h : T.Clear p u) {r : Run σ β}
    (hne : r.slot ≠ p) : (T.addRun r).Clear p u := by
  refine ⟨fun t r' hr hp => ?_, fun k l hl hp => (h.loads k l hl hp).addRun r⟩
  rcases Trace.runs_addRun.mp hr with hr | ⟨_, rfl⟩
  · exact h.runs t r' hr hp
  · exact absurd hp hne

/-- A load into another slot leaves a slot clear. -/
theorem Trace.Clear.addLoad {T : Trace σ β} {p : σ} {u : Nat} (h : T.Clear p u) {l : Load σ β}
    (hne : l.slot ≠ p) : (T.addLoad l).Clear p u := by
  refine ⟨h.runs, fun k l' hl hp => ?_⟩
  rcases Trace.loads_addLoad.mp hl with hl | ⟨_, rfl⟩
  · exact h.loads k l' hl hp
  · exact absurd hp hne

/-- A slot that holds what a run expects is clear once the run is done. -/
theorem Trace.Holds.clear [DecidableEq σ] {start : σ → Option β} {T : Trace σ β} {p : σ} {c : β}
    {r : Run σ β} (h : T.Holds start p c r.waits) : (T.addRun r).Clear p (T.runs.length + 1) := by
  refine ⟨fun t r' hr _ => ?_, fun k l hl hp => ?_⟩
  · have := (List.getElem?_eq_some_iff.mp hr).1
    rwa [Trace.length_addRun] at this
  · rcases h.loads k l hl hp with hk | hk
    · exact (hk.mono (Nat.le_succ _)).addRun r
    · exact Trace.awaited_addRun_of_mem hk

theorem Trace.Holds.addRun [DecidableEq σ] {start : σ → Option β} {T : Trace σ β} {p : σ} {c : β}
    {waits : List Nat} (h : T.Holds start p c waits) (r : Run σ β) :
    (T.addRun r).Holds start p c waits := by
  refine ⟨h.content, fun k l hl hp => (h.loads k l hl hp).imp (fun hk => ?_) id⟩
  rw [Trace.length_addRun]
  exact (hk.addRun r).mono (Nat.le_succ _)

/-- What a run has read is still there for a later run, which need not wait. -/
theorem Trace.Holds.done [DecidableEq σ] {start : σ → Option β} {T : Trace σ β} {p : σ} {c : β}
    {r : Run σ β} (h : T.Holds start p c r.waits) : (T.addRun r).Holds start p c [] := by
  refine ⟨h.content, fun k l hl hp => .inl ?_⟩
  rw [Trace.length_addRun]
  exact h.clear.loads k l hl hp

theorem Trace.Holds.addLoad [DecidableEq σ] {start : σ → Option β} {T : Trace σ β} {p : σ} {c : β}
    {waits : List Nat} (h : T.Holds start p c waits) {l : Load σ β} (hne : l.slot ≠ p) :
    (T.addLoad l).Holds start p c waits := by
  refine ⟨?_, fun k l' hl hp => ?_⟩
  · rw [Trace.issued_addLoad, Function.update_of_ne (Ne.symm hne)]
    exact h.content
  · rcases Trace.loads_addLoad.mp hl with hl | ⟨_, rfl⟩
    · exact h.loads k l' hl hp
    · exact absurd hp hne

/-- A load into a slot that is clear by now is what the slot holds for a run that waits for it. -/
theorem Trace.Clear.holds_addLoad [DecidableEq σ] {start : σ → Option β} {T : Trace σ β}
    {l : Load σ β} {u : Nat} (h : T.Clear l.slot u) (hu : u ≤ T.runs.length) :
    (T.addLoad l).Holds start l.slot l.content [T.loads.length] := by
  refine ⟨?_, fun k l' hl hp => ?_⟩
  · rw [Trace.issued_addLoad, Function.update_self]
  · rcases Trace.loads_addLoad.mp hl with hl | ⟨rfl, rfl⟩
    · exact .inl ((h.loads k l' hl hp).mono hu)
    · exact .inr (List.mem_singleton_self _)

/-! ## The device -/

/-- The device has done some runs, some loads have landed, and the slots have contents. -/
structure Device (σ β : Type) where
  done : Nat
  landed : List Nat
  slots : σ → Option β

/-- A run is done when the loads it waits for have landed; a load lands when enough runs have been
done. -/
inductive Device.Step [DecidableEq σ] (T : Trace σ β) : Device σ β → Device σ β → Prop
  | run {d : Device σ β} (r : Run σ β) :
      T.runs[d.done]? = some r → (∀ k ∈ r.waits, k ∈ d.landed) →
      Step T d { d with done := d.done + 1 }
  | land {d : Device σ β} (k : Nat) (l : Load σ β) :
      T.loads[k]? = some l → k ∉ d.landed → l.after ≤ d.done →
      Step T d { d with
        landed := k :: d.landed, slots := Function.update d.slots l.slot (some l.content) }

/-- The states of the device in some execution of the trace. -/
inductive Device.Reach [DecidableEq σ] (start : σ → Option β) (T : Trace σ β) :
    Device σ β → Prop
  | start : Reach start T ⟨0, [], start⟩
  | step {d d' : Device σ β} : Reach start T d → Device.Step T d d' → Reach start T d'

/-- The run whose turn it is finds what it expects in its slot. -/
def Device.ReadsRight (T : Trace σ β) (d : Device σ β) : Prop :=
  ∀ r, T.runs[d.done]? = some r → (∀ k ∈ r.waits, k ∈ d.landed) →
    d.slots r.slot = some r.content

/-! ## What the discipline says of a trace -/

variable {start : σ → Option β} {T : Trace σ β}

/-- The load that supplies a run, or none when the run reads what was there at the start: every
load into the slot with a larger number comes after the run. -/
inductive Supply (start : σ → Option β) (T : Trace σ β) (t : Nat) (r : Run σ β) : Prop
  | start : start r.slot = some r.content →
      (∀ (k : Nat) (l : Load σ β), T.loads[k]? = some l → l.slot = r.slot → t < l.after) →
      Supply start T t r
  | load (k : Nat) (l : Load σ β) : T.loads[k]? = some l → l.slot = r.slot →
      l.content = r.content → T.Awaited k (t + 1) →
      (∀ (k' : Nat) (l' : Load σ β), T.loads[k']? = some l' → l'.slot = r.slot → k < k' →
        t < l'.after) →
      Supply start T t r

theorem Supply.addRun {t : Nat} {r : Run σ β} (h : Supply start T t r) (r' : Run σ β) :
    Supply start (T.addRun r') t r := by
  cases h with
  | start hs hl => exact .start hs hl
  | load k l hk hslot hc hawait hlast => exact .load k l hk hslot hc (hawait.addRun r') hlast

theorem Supply.addLoad {t : Nat} {r : Run σ β} (h : Supply start T t r) {l₀ : Load σ β}
    (hl₀ : l₀.slot = r.slot → t < l₀.after) : Supply start (T.addLoad l₀) t r := by
  cases h with
  | start hs hl =>
    refine .start hs fun k l hk hslot => ?_
    rcases Trace.loads_addLoad.mp hk with hk | ⟨_, rfl⟩
    · exact hl k l hk hslot
    · exact hl₀ hslot
  | load k l hk hslot hc hawait hlast =>
    refine .load k l (Trace.loads_addLoad.mpr (.inl hk)) hslot hc hawait
      fun k' l' hk' hslot' hlt => ?_
    rcases Trace.loads_addLoad.mp hk' with hk' | ⟨_, rfl⟩
    · exact hlast k' l' hk' hslot' hlt
    · exact hl₀ hslot'

variable [DecidableEq σ]

/-- Of two loads into one slot the earlier one is over before the later one may take effect. -/
theorem Staged.awaited_of_lt (h : Staged start T) {k k' : Nat} {l l' : Load σ β}
    (hk : T.loads[k]? = some l) (hk' : T.loads[k']? = some l') (hslot : l.slot = l'.slot)
    (hlt : k < k') : T.Awaited k l'.after := by
  induction h with
  | empty => simp [Trace.empty] at hk
  | run r _ _ ih => exact (ih hk hk').addRun r
  | @load T l₀ _ hclear ih =>
    rcases Trace.loads_addLoad.mp hk' with hold | ⟨rfl, rfl⟩
    · rcases Trace.loads_addLoad.mp hk with hk | ⟨rfl, rfl⟩
      · exact ih hk hold
      · exact absurd (List.getElem?_eq_some_iff.mp hold).1 (Nat.lt_asymm hlt)
    · rcases Trace.loads_addLoad.mp hk with hk | ⟨rfl, rfl⟩
      · exact hclear.loads k l hk hslot
      · exact absurd hlt (Nat.lt_irrefl _)

/-- What a slot holds was there at the start or was put there by the last load into it. -/
theorem Trace.issued_cases {p : σ} {c : β} (h : T.issued start p = some c) :
    (start p = some c ∧ ∀ (k : Nat) (l : Load σ β), T.loads[k]? = some l → l.slot ≠ p) ∨
    ∃ (k : Nat) (l : Load σ β), T.loads[k]? = some l ∧ l.slot = p ∧ l.content = c ∧
      ∀ (k' : Nat) (l' : Load σ β), T.loads[k']? = some l' → l'.slot = p → k' ≤ k := by
  obtain ⟨runs, loads⟩ := T
  induction loads using List.reverseRecOn with
  | nil => exact .inl ⟨h, fun k l hl => by simp at hl⟩
  | append_singleton loads l₀ ih =>
    change (Trace.addLoad ⟨runs, loads⟩ l₀).issued start p = some c at h
    rw [Trace.issued_addLoad] at h
    by_cases hp : p = l₀.slot
    · subst hp
      rw [Function.update_self] at h
      refine .inr ⟨loads.length, l₀, getElem?_concat_iff.mpr (.inr ⟨rfl, rfl⟩), rfl,
        Option.some.inj h, fun k' l' hl' _ => ?_⟩
      have := (List.getElem?_eq_some_iff.mp hl').1
      rw [List.length_append, List.length_singleton] at this
      exact Nat.le_of_lt_succ this
    · rw [Function.update_of_ne hp] at h
      rcases ih h with ⟨hstart, hnone⟩ | ⟨k, l, hk, hslot, hc, hlast⟩
      · refine .inl ⟨hstart, fun k l hl => ?_⟩
        rcases getElem?_concat_iff.mp hl with hl | ⟨_, rfl⟩
        · exact hnone k l hl
        · exact Ne.symm hp
      · refine .inr ⟨k, l, getElem?_concat_iff.mpr (.inl hk), hslot, hc, fun k' l' hl' hp' => ?_⟩
        rcases getElem?_concat_iff.mp hl' with hl' | ⟨_, rfl⟩
        · exact hlast k' l' hl' hp'
        · exact absurd hp'.symm hp

theorem Staged.supply (h : Staged start T) {t : Nat} {r : Run σ β} (hr : T.runs[t]? = some r) :
    Supply start T t r := by
  induction h with
  | empty => simp [Trace.empty] at hr
  | load l₀ _ hclear ih => exact (ih hr).addLoad fun hslot => hclear.runs t r hr hslot.symm
  | @run T r₀ _ hholds ih =>
    rcases Trace.runs_addRun.mp hr with hr | ⟨rfl, rfl⟩
    · exact (ih hr).addRun r₀
    · rcases Trace.issued_cases hholds.content with ⟨hs, hnone⟩ | ⟨k, l, hk, hslot, hc, hlast⟩
      · exact .start hs fun k l hk hslot => absurd hslot (hnone k l hk)
      · refine .load k l hk hslot hc (hholds.clear.loads k l hk hslot)
          fun k' l' hk' hslot' hlt => ?_
        exact absurd (hlast k' l' hk' hslot') (Nat.not_le_of_lt hlt)

/-! ## What the discipline says of the device -/

/-- What holds in every execution: only issued loads land, not too early and not too late, and a
slot has the content of the last load that landed in it. -/
structure Device.Ok (start : σ → Option β) (T : Trace σ β) (d : Device σ β) : Prop where
  issued : ∀ k ∈ d.landed, ∃ l, T.loads[k]? = some l ∧ l.after ≤ d.done
  awaited : ∀ k, T.Awaited k d.done → k ∈ d.landed
  untouched : ∀ p, (∀ k ∈ d.landed, ∀ l, T.loads[k]? = some l → l.slot ≠ p) →
    d.slots p = start p
  last : ∀ k ∈ d.landed, ∀ l, T.loads[k]? = some l →
    (∀ k' ∈ d.landed, ∀ l', T.loads[k']? = some l' → l'.slot = l.slot → k' ≤ k) →
    d.slots l.slot = some l.content

/-- The loads into one slot land in the order of their issue. -/
theorem Device.Ok.lt_of_land {d : Device σ β} (hd : d.Ok start T) (h : Staged start T)
    {k k' : Nat} {l l' : Load σ β} (hk : T.loads[k]? = some l) (hnew : k ∉ d.landed)
    (hk' : T.loads[k']? = some l') (hold : k' ∈ d.landed) (hslot : l'.slot = l.slot) :
    k' < k := by
  obtain ⟨l'', hl'', hafter⟩ := hd.issued k' hold
  obtain rfl : l' = l'' := Option.some.inj (hk'.symm.trans hl'')
  refine Nat.lt_of_not_le fun hle => hnew ?_
  have hne : k ≠ k' := fun heq => hnew (heq ▸ hold)
  have hawait := h.awaited_of_lt hk hk' hslot.symm (Nat.lt_of_le_of_ne hle hne)
  exact hd.awaited k (hawait.mono hafter)

theorem Device.Ok.step {d d' : Device σ β} (hd : d.Ok start T) (h : Staged start T)
    (hstep : Device.Step T d d') : d'.Ok start T := by
  cases hstep with
  | run r hr hwaits =>
    refine ⟨fun k hk => ?_, fun k hk => ?_, hd.untouched, hd.last⟩
    · obtain ⟨l, hl, hafter⟩ := hd.issued k hk
      exact ⟨l, hl, Nat.le_succ_of_le hafter⟩
    · obtain ⟨t, r', ht, hr', hmem⟩ := hk
      rcases Nat.lt_succ_iff_lt_or_eq.mp ht with ht | rfl
      · exact hd.awaited k ⟨t, r', ht, hr', hmem⟩
      · obtain rfl : r = r' := Option.some.inj (hr.symm.trans hr')
        exact hwaits k hmem
  | land k l hk hnew hafter =>
    refine ⟨fun k' hk' => ?_, fun k' hk' => List.mem_cons_of_mem _ (hd.awaited k' hk'),
      fun p hp => ?_, fun k' hk' l' hl' hlast => ?_⟩
    · rcases List.mem_cons.mp hk' with rfl | hk'
      · exact ⟨l, hk, hafter⟩
      · exact hd.issued k' hk'
    · have hne : l.slot ≠ p := hp k List.mem_cons_self l hk
      change Function.update d.slots l.slot (some l.content) p = start p
      rw [Function.update_of_ne (Ne.symm hne)]
      exact hd.untouched p fun k' hk' => hp k' (List.mem_cons_of_mem _ hk')
    · change Function.update d.slots l.slot (some l.content) l'.slot = some l'.content
      by_cases hslot : l'.slot = l.slot
      · have heq : k' = k := by
          rcases List.mem_cons.mp hk' with rfl | hold
          · rfl
          · have hlt := hd.lt_of_land h hk hnew hl' hold hslot
            exact absurd (hlast k List.mem_cons_self l hk hslot.symm) (Nat.not_le_of_lt hlt)
        subst heq
        obtain rfl : l = l' := Option.some.inj (hk.symm.trans hl')
        rw [Function.update_self]
      · rw [Function.update_of_ne hslot]
        refine hd.last k' ?_ l' hl' fun k'' hk'' => hlast k'' (List.mem_cons_of_mem _ hk'')
        refine (List.mem_cons.mp hk').resolve_left fun heq => hslot ?_
        subst heq
        rw [Option.some.inj (hk.symm.trans hl')]

theorem Device.Reach.ok {d : Device σ β} (hreach : Device.Reach start T d) (h : Staged start T) :
    d.Ok start T := by
  induction hreach with
  | start =>
    refine ⟨fun k hk => by simp at hk, fun k hk => ?_, fun _ _ => rfl, fun k hk => by simp at hk⟩
    obtain ⟨t, _, ht, _⟩ := hk
    exact absurd ht (Nat.not_lt_zero t)
  | step _ hstep ih => exact ih.step h hstep

/-- Every run finds in its slot what it expects. -/
theorem Staged.reads (h : Staged start T) {d : Device σ β} (hreach : Device.Reach start T d) :
    d.ReadsRight T := by
  intro r hr hwaits
  have hd := hreach.ok h
  -- a load that has landed came early enough for the run
  have hearly : ∀ k ∈ d.landed, ∀ l, T.loads[k]? = some l → ¬ d.done < l.after := by
    intro k hk l hl
    obtain ⟨l', hl', hafter⟩ := hd.issued k hk
    obtain rfl : l = l' := Option.some.inj (hl.symm.trans hl')
    exact Nat.not_lt_of_le hafter
  cases h.supply hr with
  | start hs hlate =>
    rw [hd.untouched r.slot fun k hk l hl hslot => hearly k hk l hl (hlate k l hl hslot)]
    exact hs
  | load k l hk hslot hc hawait hlate =>
    have hlanded : k ∈ d.landed := by
      obtain ⟨t, r', ht, hr', hmem⟩ := hawait
      rcases Nat.lt_succ_iff_lt_or_eq.mp ht with ht | rfl
      · exact hd.awaited k ⟨t, r', ht, hr', hmem⟩
      · obtain rfl : r = r' := Option.some.inj (hr.symm.trans hr')
        exact hwaits k hmem
    rw [← hslot, ← hc]
    refine hd.last k hlanded l hk fun k' hk' l' hl' hslot' => Nat.le_of_not_lt fun hlt => ?_
    exact hearly k' hk' l' hl' (hlate k' l' hl' (hslot'.trans hslot) hlt)

/-- While a load lands in the slot of a run that is still to come, the content for that run is
still to come too: it is brought by a load that has not landed and that is waited for in time. -/
theorem Staged.not_landed (h : Staged start T) {d : Device σ β} (hreach : Device.Reach start T d)
    {k₀ : Nat} {l₀ : Load σ β} (hk₀ : T.loads[k₀]? = some l₀) (hnew : k₀ ∉ d.landed)
    (hafter : l₀.after ≤ d.done) {t : Nat} {r : Run σ β} (hr : T.runs[t]? = some r)
    (ht : d.done ≤ t) (hslot₀ : r.slot = l₀.slot) :
    ∃ (k : Nat) (l : Load σ β), T.loads[k]? = some l ∧ l.slot = r.slot ∧ l.content = r.content ∧
      T.Awaited k (t + 1) ∧ k ∉ d.landed := by
  cases h.supply hr with
  | start hs hlate =>
    have := hlate k₀ l₀ hk₀ hslot₀.symm
    omega
  | load k l hk hslot hc hawait hlate =>
    refine ⟨k, l, hk, hslot, hc, hawait, fun hold => ?_⟩
    have hlt := (hreach.ok h).lt_of_land h hk₀ hnew hk hold (hslot.trans hslot₀)
    have := hlate k₀ l₀ hk₀ hslot₀.symm hlt
    omega

/-- In every execution each run reads what it expects, and no load lands in the slot of a run still
to come unless the content for that run is still to come. -/
structure Safe (start : σ → Option β) (T : Trace σ β) : Prop where
  reads : ∀ {d : Device σ β}, Device.Reach start T d → d.ReadsRight T
  keeps : ∀ {d : Device σ β}, Device.Reach start T d →
    ∀ {k₀ : Nat} {l₀ : Load σ β}, T.loads[k₀]? = some l₀ → k₀ ∉ d.landed → l₀.after ≤ d.done →
    ∀ {t : Nat} {r : Run σ β}, T.runs[t]? = some r → d.done ≤ t → r.slot = l₀.slot →
    ∃ (k : Nat) (l : Load σ β), T.loads[k]? = some l ∧ l.slot = r.slot ∧ l.content = r.content ∧
      T.Awaited k (t + 1) ∧ k ∉ d.landed

theorem Staged.safe (h : Staged start T) : Safe start T :=
  ⟨fun hreach => h.reads hreach, fun hreach => h.not_landed hreach⟩

end Mil.Lib.Staging

import Mathlib.Order.Bounds.Basic
import Mil.Fcfs.Cache

/-!
# The decode steps the cache has room for

`get_max_iter_num` computes its number from a quotient, a remainder and the slack of each running
request, the free places in its last block. It is exact: `blocksAfter_eq` says how many blocks the
requests hold after `k * blockSize + e` more steps, and the slack that is chosen is the one at which
the remaining free blocks run out (`firstExceeding_spec`). So the number is the greatest for which no
request runs past its end and the cache suffices (`getMaxIterNum_isGreatest`).

Killing is not exact: it charges the last request it keeps a whole new block. The first request is
kept if and only if there is room for its blocks and one more (`kill_keeps_first_iff`).
-/

set_option autoImplicit false

namespace Mil.Fcfs

open Mil.Lib

variable {cfg : Config} {blockSize : Nat}

/-! ## Blocks after more steps -/

/-- The blocks that requests hold after `steps` more decode steps. -/
def blocksAfter (blockSize steps : Nat) (seqs : List Seq) : Nat :=
  (seqs.map fun q => ceilBlocks blockSize (q.len - 1 + steps)).sum

@[simp] theorem blocksAfter_cons (steps : Nat) (q : Seq) (seqs : List Seq) :
    blocksAfter blockSize steps (q :: seqs) =
      ceilBlocks blockSize (q.len - 1 + steps) + blocksAfter blockSize steps seqs := by
  simp [blocksAfter]

theorem blocksAfter_mono {steps steps' : Nat} (h : steps ≤ steps') (seqs : List Seq) :
    blocksAfter blockSize steps seqs ≤ blocksAfter blockSize steps' seqs := by
  induction seqs with
  | nil => exact le_rfl
  | cons q seqs ih =>
    rw [blocksAfter_cons, blocksAfter_cons]
    exact Nat.add_le_add (ceilBlocks_mono (Nat.add_le_add_left h _)) ih

theorem ceilBlocks_eq {n c : Nat} (hlow : blockSize * c < n + blockSize) (hhigh : n ≤ blockSize * c) :
    ceilBlocks blockSize n = c := by
  have hsucc : (c + 1) * blockSize = blockSize * c + blockSize := by rw [Nat.succ_mul, Nat.mul_comm]
  refine Nat.div_eq_of_lt_le ?_ ?_
  · rw [Nat.mul_comm]
    omega
  · rw [hsucc]
    omega

/-- The free places in the last block of a request. -/
theorem extraIterNum_spec (h : 0 < blockSize) {q : Seq} (hlen : 1 ≤ q.len) :
    extraIterNum blockSize q ≤ blockSize ∧
      q.len + extraIterNum blockSize q = blockSize * q.blocks blockSize + 2 := by
  obtain ⟨n, hn⟩ : ∃ n, q.len = n + 1 := ⟨q.len - 1, by omega⟩
  have hpos : (0 : Int) < blockSize := Int.natCast_pos.mpr h
  obtain ⟨d, hd⟩ : ∃ d : Nat, (d : Int) = (1 - (q.len : Int)) % (blockSize : Int) :=
    Int.eq_ofNat_of_zero_le (Int.emod_nonneg _ hpos.ne') |>.imp fun _ hd => hd.symm
  have hlt : d < blockSize := by
    have hlt := Int.emod_lt_of_pos (1 - (q.len : Int)) hpos
    omega
  -- The slack fills the request's tokens up to a multiple of the block size.
  obtain ⟨c, hc⟩ : ∃ c : Nat, n + d = blockSize * c := by
    have hdvd : (blockSize : Int) ∣ (n : Int) + d := by
      have hself : (blockSize : Int) ∣
          (1 - (q.len : Int)) - (1 - (q.len : Int)) % (blockSize : Int) := Int.dvd_self_sub_emod
      have heq : (1 - (q.len : Int)) - (1 - (q.len : Int)) % (blockSize : Int) =
          -((n : Int) + d) := by
        rw [← hd, hn]
        push_cast
        omega
      rw [heq] at hself
      exact Int.dvd_neg.mp hself
    exact Int.natCast_dvd_natCast.mp (by exact_mod_cast hdvd)
  have hblocks : q.blocks blockSize = c := by
    rw [Seq.blocks, hn, Nat.add_sub_cancel]
    exact ceilBlocks_eq (by omega) (by omega)
  have hextra : extraIterNum blockSize q = d + 1 := by
    rw [extraIterNum, ← hd, Int.toNat_natCast]
  rw [hextra, hblocks]
  omega

/-- One request after `k` whole blocks and `e` more steps: it has crossed another boundary if its
slack is used up. -/
theorem ceilBlocks_add (h : 0 < blockSize) {q : Seq} (hlen : 1 ≤ q.len) (k : Nat) {e : Nat}
    (he : e ≤ blockSize) : ceilBlocks blockSize (q.len - 1 + (k * blockSize + e)) =
      q.blocks blockSize + k + if extraIterNum blockSize q ≤ e then 1 else 0 := by
  obtain ⟨hle, hslack⟩ := extraIterNum_spec h hlen
  have hpos : 0 < extraIterNum blockSize q := extraIterNum_pos q
  split
  · refine ceilBlocks_eq ?_ ?_ <;>
      rw [Nat.mul_add, Nat.mul_add, Nat.mul_one, Nat.mul_comm k blockSize] <;> omega
  · refine ceilBlocks_eq ?_ ?_ <;>
      rw [Nat.add_zero, Nat.mul_add, Nat.mul_comm k blockSize] <;> omega

theorem blocksAfter_eq (h : 0 < blockSize) {seqs : List Seq} (hlen : ∀ q ∈ seqs, 1 ≤ q.len)
    (k : Nat) {e : Nat} (he : e ≤ blockSize) : blocksAfter blockSize (k * blockSize + e) seqs =
      blocksOf blockSize seqs + k * seqs.length +
        (seqs.map (extraIterNum blockSize)).countP (· ≤ e) := by
  induction seqs with
  | nil => simp [blocksAfter]
  | cons q seqs ih =>
    obtain ⟨hq, hseqs⟩ := List.forall_mem_cons.mp hlen
    rw [blocksAfter_cons, ceilBlocks_add h hq k he, ih hseqs, blocksOf_cons, List.map_cons,
      List.countP_cons, List.length_cons, Nat.mul_succ]
    simp only [decide_eq_true_eq]
    omega

/-! ## The chosen slack -/

theorem countP_not_mem_cons {w : Nat} {u : List Nat} (hw : w ∉ u) (l : List Nat) :
    l.countP (· ∉ w :: u) + l.count w = l.countP (· ∉ u) := by
  induction l with
  | nil => rfl
  | cons x l ih =>
    rw [List.countP_cons, List.countP_cons, List.count_cons, ← ih]
    by_cases hx : x = w
    · subst hx
      simp [hw]
      omega
    · simp [hx]
      omega

/-- The chosen value is the one at which the cumulated counts exceed what is left. -/
theorem firstExceeding_spec {l : List Nat} {left acc : Nat} {u : List Nat}
    (hsorted : u.Pairwise (· < ·)) (hacc : acc = l.countP (· ∉ u))
    (hlow : ∀ x ∈ l, x ∉ u → ∀ w ∈ u, x < w) (hle : acc ≤ left) {v : Nat}
    (h : firstExceeding l left acc u = some v) :
    l.countP (· < v) ≤ left ∧ left < l.countP (· ≤ v) := by
  induction u generalizing acc with
  | nil => cases h
  | cons w u ih =>
    obtain ⟨hw, hsorted⟩ := List.pairwise_cons.mp hsorted
    have hnew : acc + l.count w = l.countP (· ∉ u) := by
      rw [hacc]
      exact countP_not_mem_cons (fun hmem => Nat.lt_irrefl w (hw w hmem)) l
    rw [firstExceeding] at h
    split at h
    · rename_i hexceeds
      obtain rfl := Option.some.inj h
      have hbelow : l.countP (· < w) = acc := by
        rw [hacc]
        refine List.countP_congr fun x hx => ?_
        rw [decide_eq_true_eq, decide_eq_true_eq, List.mem_cons, not_or]
        constructor
        · exact fun hlt => ⟨hlt.ne, fun hmem => Nat.lt_asymm hlt (hw x hmem)⟩
        · exact fun hne => hlow x hx (by simpa using hne) w (.head _)
      have hupto : l.countP (· ≤ w) = acc + l.count w := by
        rw [hnew]
        refine List.countP_congr fun x hx => ?_
        rw [decide_eq_true_eq, decide_eq_true_eq]
        constructor
        · exact fun hle hmem => Nat.not_lt.mpr hle (hw x hmem)
        · intro hmem
          by_cases heq : x = w
          · exact heq.le
          · exact (hlow x hx (by simp [heq, hmem]) w (.head _)).le
      omega
    · rename_i hnot
      refine ih hsorted hnew (fun x hx hmem w' hw' => ?_) (Nat.not_lt.mp hnot) h
      by_cases heq : x = w
      · exact heq ▸ hw w' hw'
      · exact hlow x hx (by simp [heq, hmem]) w' (.tail _ hw')

theorem firstExceeding_unique {l : List Nat} {left v : Nat}
    (h : firstExceeding l left 0 (unique l) = some v) :
    l.countP (· < v) ≤ left ∧ left < l.countP (· ≤ v) := by
  refine firstExceeding_spec (unique_pairwise l) ?_ (fun x hx hmem => ?_) (Nat.zero_le _) h
  · refine (List.countP_eq_zero.mpr fun x hx => ?_).symm
    rw [decide_eq_true_eq, not_not]
    exact mem_unique.mpr hx
  · exact absurd (mem_unique.mpr hx) hmem

/-! ## The number of steps -/

/-- `get_max_iter_num` is the greatest number of steps for which no request runs past its end and the
cache suffices. -/
theorem getMaxIterNum_isGreatest (h : 0 < cfg.blockSize) {s : Sched} (hne : s.runningSeqs ≠ [])
    (hlen : ∀ q ∈ s.runningSeqs, 1 ≤ q.len)
    (hused : s.blockNumUsed = blocksOf cfg.blockSize s.runningSeqs)
    (hle : s.blockNumUsed ≤ cfg.maxBlockNum) :
    ∃ steps, getMaxIterNum cfg s = some steps ∧
      IsGreatest {t | (∀ q ∈ s.runningSeqs, t ≤ q.rem) ∧
        blocksAfter cfg.blockSize t s.runningSeqs ≤ cfg.maxBlockNum} steps := by
  set extras := s.runningSeqs.map (extraIterNum cfg.blockSize) with hextras
  set free := cfg.maxBlockNum - s.blockNumUsed with hfree
  have hnum : 0 < s.runningSeqs.length := List.length_pos_of_ne_nil hne
  have hleft : free % s.runningSeqs.length < 0 + ((unique extras).map extras.count).sum := by
    rw [sum_count_unique, hextras, List.length_map, Nat.zero_add]
    exact Nat.mod_lt _ hnum
  obtain ⟨extra, hextra⟩ := exists_firstExceeding hleft (Nat.zero_le _)
  obtain ⟨least, hleast⟩ : ∃ least, (s.runningSeqs.map Seq.rem).min? = some least :=
    Option.ne_none_iff_exists'.mp (by simpa using hne)
  obtain ⟨hleast_mem, hleast_le⟩ := List.min?_eq_some_iff.mp hleast
  obtain ⟨hbelow, habove⟩ := firstExceeding_unique hextra
  obtain ⟨q, hq, heq⟩ := List.mem_map.mp (mem_unique.mp (mem_of_firstExceeding hextra))
  have hextra_pos : 0 < extra := heq ▸ extraIterNum_pos q
  have hextra_le : extra ≤ cfg.blockSize := heq ▸ (extraIterNum_spec h (hlen q hq)).1
  have hdiv : free / s.runningSeqs.length * s.runningSeqs.length +
      free % s.runningSeqs.length = free := by
    rw [Nat.mul_comm]
    exact Nat.div_add_mod _ _
  refine ⟨min least (free / s.runningSeqs.length * cfg.blockSize + (extra - 1)), ?_, ⟨?_, ?_⟩, ?_⟩
  · simp only [getMaxIterNum, ← hextras, ← hfree, hextra, hleast]
    rfl
  · exact fun q hq => (Nat.min_le_left _ _).trans (hleast_le _ (List.mem_map_of_mem hq))
  · refine (blocksAfter_mono (Nat.min_le_right _ _) _).trans ?_
    have hcount : extras.countP (· ≤ extra - 1) = extras.countP (· < extra) :=
      List.countP_congr fun x _ => by
        rw [decide_eq_true_eq, decide_eq_true_eq, Nat.le_sub_one_iff_lt hextra_pos]
    rw [blocksAfter_eq h hlen _ ((Nat.sub_le _ _).trans hextra_le), ← hextras, hcount, ← hused]
    omega
  · rintro t ⟨hrem, hblocks⟩
    refine Nat.le_min.mpr ⟨?_, ?_⟩
    · obtain ⟨q, hq, rfl⟩ := List.mem_map.mp hleast_mem
      exact hrem q hq
    · -- One more step would need more blocks than there are.
      by_contra hgt
      have hmore : free / s.runningSeqs.length * cfg.blockSize + extra ≤ t := by omega
      have hneed := (blocksAfter_mono hmore s.runningSeqs).trans hblocks
      rw [blocksAfter_eq h hlen _ hextra_le, ← hextras, ← hused] at hneed
      omega

/-! ## Killing -/

/-- The first request is kept if and only if there is room for one block more than it has. -/
theorem kill_keeps_first_iff (h : 0 < cfg.blockSize) {s : Sched} {q : Seq} {rest : List Seq}
    (hrunning : s.runningSeqs = q :: rest) (hlen : ∀ q ∈ s.runningSeqs, 1 ≤ q.len) :
    (∃ s', killSeqsForMoreCacheSpace cfg s = some s' ∧ s'.runningSeqs.head? = some q) ↔
      q.blocks cfg.blockSize + 1 ≤ cfg.maxBlockNum := by
  constructor
  · rintro ⟨s', hkill, hhead⟩
    by_contra hfull
    obtain ⟨most, hmost⟩ : ∃ most, (approxTotBlockNums cfg.blockSize 0 s.runningSeqs).max? = some most :=
      Option.ne_none_iff_exists'.mp (by simp [hrunning, approxTotBlockNums])
    have hfirst : q.blocks cfg.blockSize + 1 ≤ most :=
      (List.max?_eq_some_iff.mp hmost).2 _ (by rw [hrunning]; exact .head _)
    have hnum : (approxTotBlockNums cfg.blockSize 0 s.runningSeqs).findIdx
        (cfg.maxBlockNum < ·) = 0 := by
      rw [hrunning, approxTotBlockNums, List.findIdx_cons, Nat.add_zero,
        decide_eq_true (Nat.not_le.mp hfull)]
      rfl
    simp only [killSeqsForMoreCacheSpace, hmost, Option.bind_eq_bind, Option.bind_some, hnum,
      if_pos ((Nat.not_le.mp hfull).trans_le hfirst), List.take_zero] at hkill
    obtain rfl := Option.some.inj hkill
    cases hhead
  · intro hfirst
    obtain ⟨num, hpos, hkill, -⟩ := killSeqsForMoreCacheSpace_spec h hrunning hlen hfirst
    refine ⟨_, hkill, ?_⟩
    obtain ⟨num, rfl⟩ : ∃ n, num = n + 1 := ⟨num - 1, by omega⟩
    show (s.runningSeqs.take (num + 1)).head? = some q
    rw [hrunning]
    rfl

/-- When the first request is kept there is room for a step. -/
theorem steps_pos_of_kept (h : 0 < cfg.blockSize) {s : Sched} {q : Seq} {rest : List Seq}
    (hrunning : s.runningSeqs = q :: rest) (hlen : ∀ q ∈ s.runningSeqs, 1 ≤ q.len)
    (hrem : ∀ q ∈ s.runningSeqs, 1 ≤ q.rem) (hfirst : q.blocks cfg.blockSize + 1 ≤ cfg.maxBlockNum) :
    ∃ s' steps, killSeqsForMoreCacheSpace cfg s = some s' ∧ getMaxIterNum cfg s' = some steps ∧
      1 ≤ steps := by
  obtain ⟨num, hpos, hkill, hneeded⟩ := killSeqsForMoreCacheSpace_spec h hrunning hlen hfirst
  have hne : s.runningSeqs.take num ≠ [] := by
    obtain ⟨num, rfl⟩ : ∃ n, num = n + 1 := ⟨num - 1, by omega⟩
    rw [hrunning]
    exact List.cons_ne_nil _ _
  obtain ⟨steps, hsteps, hsteps_pos, -⟩ := getMaxIterNum_spec (s := s.keep cfg.blockSize num) h hne
    (fun q hq => hlen q (List.mem_of_mem_take hq)) (fun q hq => hrem q (List.mem_of_mem_take hq))
    rfl hneeded
  exact ⟨_, steps, hkill, hsteps, hsteps_pos⟩

end Mil.Fcfs

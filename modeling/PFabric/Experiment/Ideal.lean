import Mathlib.Algebra.Order.BigOperators.Group.List
import Mathlib.Data.Prod.Lex
import Mathlib.Data.Rat.Floor
import Mathlib.Tactic.Linarith
import Mathlib.Tactic.NormNum
import PFabric.Support.SlotSchedule

/-!
# The ideal flow scheduler

The model of `ideal.py`, in exact arithmetic.  `schedule_flows` keeps a list of
references to the flows that are not done and, slot by slot, sends one packet of
the flow with the least remaining size.  The `argmin` of `numpy` is a parameter.

As long as at most one flow has no bytes to send, the loop computes the serial
schedule in which the flows are ordered by size, and by position where the sizes
agree.
-/

namespace PFabric
namespace Ideal

open SlotSchedule

/-! ## The source -/

/-- `ETHER_FRAME_LEN`, in bytes. -/
def etherFrameLen : ℚ := 1500

/-- `LINK_CAPACITY`, in bytes per second. -/
def linkCapacity : ℚ := 100000000 / 8

/-- `DELTA_T`, the time one frame takes. -/
def deltaT : ℚ := etherFrameLen / linkCapacity

/-- `frame_overhead` of `packet_sent`: the Ethernet and IP headers. -/
def frameOverhead : ℚ := 34

/-- What `packet_sent` takes off a flow that has more than one frame left. -/
def payload : ℚ := etherFrameLen - frameOverhead

structure Flow where
  remainingSize : ℚ
  startTime : ℚ
  completionTime : ℚ

namespace Flow

/-- `Flow.__init__` with the default start time. -/
def new (size : ℚ) : Flow where
  remainingSize := size
  startTime := 0
  completionTime := -1

def isDone (f : Flow) : Bool := f.remainingSize ≤ 0

def packetSent (f : Flow) (time : ℚ) : Flow :=
  let f := { f with remainingSize := f.remainingSize - min payload f.remainingSize }
  if f.isDone then { f with completionTime := time - f.startTime } else f

end Flow

/-- The method `argmin` of a `numpy` array, of which only this is known: it gives the
first position of the least value. -/
structure Argmin where
  index : List ℚ → ℕ
  index_eq : ∀ {before after : List ℚ} {v : ℚ}, (∀ w ∈ before, v < w) →
    (∀ w ∈ after, v ≤ w) → index (before ++ v :: after) = before.length

def getMinIndex (argmin : Argmin) (values : List ℚ) : ℕ := argmin.index values

/-- The variables of `schedule_flows`.  The list to schedule holds references to
the flows. -/
structure State (n : ℕ) where
  flows : Fin n → Flow
  flowsToSchedule : List (Fin n)
  time : ℚ

variable {n : ℕ}

namespace State

def remainingSizes (s : State n) : List ℚ :=
  s.flowsToSchedule.map fun i => (s.flows i).remainingSize

/-- The body of the `while` loop. -/
def scheduleSlot (argmin : Argmin) (s : State n) : State n :=
  let time := s.time + deltaT
  match s.flowsToSchedule[getMinIndex argmin s.remainingSizes]? with
  | none => { s with time := time }
  | some i =>
      let flows := Function.update s.flows i ((s.flows i).packetSent time)
      { flows := flows
        flowsToSchedule := s.flowsToSchedule.filter fun j => !(flows j).isDone
        time := time }

end State

/-! ## Frames -/

theorem payload_eq : payload = 1466 := by norm_num [payload, etherFrameLen, frameOverhead]

theorem payload_pos : 0 < payload := by norm_num [payload_eq]

theorem deltaT_pos : 0 < deltaT := by norm_num [deltaT, etherFrameLen, linkCapacity]

/-- The number of frames a flow with `size` bytes left takes. -/
def frames (size : ℚ) : ℕ := max 1 ⌈size / payload⌉₊

theorem frames_le_iff {size : ℚ} {k : ℕ} : frames size ≤ k ↔ 1 ≤ k ∧ size ≤ k * payload := by
  rw [frames, max_le_iff, Nat.ceil_le, div_le_iff₀ payload_pos]

theorem cast_frames (size : ℚ) : (frames size : ℤ) = max 1 ⌈size / 1466⌉ := by
  rw [frames, payload_eq, ← Int.ceil_toNat]
  omega

theorem frames_pos (size : ℚ) : 0 < frames size := (frames_le_iff.mp le_rfl).1

theorem frames_mono {size size' : ℚ} (h : size ≤ size') : frames size ≤ frames size' := by
  obtain ⟨hone, hle⟩ := frames_le_iff.mp (le_refl (frames size'))
  exact frames_le_iff.mpr ⟨hone, h.trans hle⟩

theorem frames_sub_payload_lt {size : ℚ} (h : payload < size) :
    frames (size - payload) < frames size := by
  obtain ⟨-, hle⟩ := frames_le_iff.mp (le_refl (frames size))
  have htwo : 1 < frames size := by
    rw [← not_le, frames_le_iff, Nat.cast_one, one_mul]
    exact fun h1 => absurd h1.2 (not_le.mpr h)
  obtain ⟨k, hk⟩ : ∃ k, frames size = k + 1 := ⟨frames size - 1, by omega⟩
  rw [hk, Nat.lt_succ_iff, frames_le_iff]
  rw [hk, Nat.cast_succ] at hle
  exact ⟨by omega, by linarith⟩

namespace Flow

theorem packetSent_of_le {f : Flow} (time : ℚ) (h : f.remainingSize ≤ payload) :
    f.packetSent time =
      { f with remainingSize := 0, completionTime := time - f.startTime } := by
  simp [packetSent, isDone, min_eq_right h]

theorem packetSent_of_lt {f : Flow} (time : ℚ) (h : payload < f.remainingSize) :
    f.packetSent time = { f with remainingSize := f.remainingSize - payload } := by
  simp [packetSent, isDone, min_eq_left h.le, h]

/-- A flow that is not done after a packet needs one frame less. -/
theorem frames_packetSent_lt {f : Flow} {time : ℚ} (h : (f.packetSent time).isDone = false) :
    frames (f.packetSent time).remainingSize < frames f.remainingSize := by
  rcases le_or_gt f.remainingSize payload with hle | hlt
  · rw [packetSent_of_le time hle] at h
    simp [isDone] at h
  · rw [packetSent_of_lt time hlt]
    exact frames_sub_payload_lt hlt

end Flow

/-! ## The flow that is served -/

variable {argmin : Argmin}

/-- The first of the flows with the least remaining size is served. -/
theorem getElem?_getMinIndex
    {before after : List (Fin n)} {m : Fin n} {f : Fin n → ℚ}
    (hbefore : ∀ j ∈ before, f m < f j) (hafter : ∀ j ∈ after, f m ≤ f j) :
    (before ++ m :: after)[getMinIndex argmin ((before ++ m :: after).map f)]? =
      some m := by
  have hindex : getMinIndex argmin ((before ++ m :: after).map f) = before.length := by
    rw [getMinIndex, List.map_append, List.map_cons, argmin.index_eq, List.length_map]
    · exact List.forall_mem_map.mpr hbefore
    · exact List.forall_mem_map.mpr hafter
  rw [hindex, List.getElem?_append_right le_rfl, Nat.sub_self]
  rfl

/-- A list that is not empty has a first element with the least value. -/
theorem exists_first_min {l : List (Fin n)} (hl : l ≠ []) (f : Fin n → ℚ) :
    ∃ before m after, l = before ++ m :: after ∧
      (∀ j ∈ before, f m < f j) ∧ ∀ j ∈ after, f m ≤ f j := by
  induction l with
  | nil => exact absurd rfl hl
  | cons i l ih =>
      by_cases hnil : l = []
      · exact ⟨[], i, l, rfl, by simp, by simp [hnil]⟩
      · obtain ⟨before, m, after, rfl, hbefore, hafter⟩ := ih hnil
        rcases le_or_gt (f i) (f m) with hle | hlt
        · refine ⟨[], i, before ++ m :: after, rfl, by simp, fun j hj => ?_⟩
          rcases List.mem_append.mp hj with hj | hj
          · exact hle.trans (hbefore j hj).le
          · rcases List.mem_cons.mp hj with rfl | hj
            · exact hle
            · exact hle.trans (hafter j hj)
        · exact ⟨i :: before, m, after, rfl, List.forall_mem_cons.mpr ⟨hlt, hbefore⟩, hafter⟩

theorem exists_getElem?_getMinIndex
    (argmin : Argmin) {l : List (Fin n)} (hl : l ≠ []) (f : Fin n → ℚ) :
    ∃ m ∈ l, l[getMinIndex argmin (l.map f)]? = some m := by
  obtain ⟨before, m, after, rfl, hbefore, hafter⟩ := exists_first_min hl f
  exact ⟨m, by simp, getElem?_getMinIndex hbefore hafter⟩

/-! ## The loop -/

namespace State

theorem scheduleSlot_of_served {s : State n} {m : Fin n}
    (h : s.flowsToSchedule[getMinIndex argmin s.remainingSizes]? = some m) :
    s.scheduleSlot argmin =
      { flows := Function.update s.flows m ((s.flows m).packetSent (s.time + deltaT))
        flowsToSchedule := s.flowsToSchedule.filter fun j =>
          !(Function.update s.flows m ((s.flows m).packetSent (s.time + deltaT)) j).isDone
        time := s.time + deltaT } := by
  rw [scheduleSlot, h]

/-- The number of frames the flows of the list still take. -/
def framesLeft (s : State n) : ℕ :=
  (s.flowsToSchedule.map fun i => frames (s.flows i).remainingSize).sum

/-- The flows that are done count nothing. -/
theorem sum_frames_filter (flows : Fin n → Flow) (l : List (Fin n)) :
    ((l.filter fun j => !(flows j).isDone).map fun i => frames (flows i).remainingSize).sum =
      (l.map fun i => if (flows i).isDone then 0 else frames (flows i).remainingSize).sum := by
  induction l with
  | nil => rfl
  | cons j l ih => cases hj : (flows j).isDone <;> simp [hj, ih]

/-- Every slot brings the loop nearer to its end, also one that sends no byte. -/
theorem framesLeft_scheduleSlot_lt
    (argmin : Argmin) {s : State n} (h : s.flowsToSchedule ≠ []) :
    (s.scheduleSlot argmin).framesLeft < s.framesLeft := by
  obtain ⟨m, hm, hserved⟩ :=
    exists_getElem?_getMinIndex argmin h fun i => (s.flows i).remainingSize
  rw [scheduleSlot_of_served hserved]
  simp only [framesLeft]
  set flows := Function.update s.flows m ((s.flows m).packetSent (s.time + deltaT))
  -- the flow that is served loses a frame or leaves the list
  have hserved : (if (flows m).isDone then 0 else frames (flows m).remainingSize) <
      frames (s.flows m).remainingSize := by
    by_cases hdone : (flows m).isDone = true
    · rw [if_pos hdone]
      exact frames_pos _
    · rw [if_neg hdone]
      rw [Bool.not_eq_true] at hdone
      simp only [flows, Function.update_self] at hdone ⊢
      exact Flow.frames_packetSent_lt hdone
  rw [sum_frames_filter]
  refine List.sum_lt_sum _ _ (fun j _ => ?_) ⟨m, hm, hserved⟩
  by_cases hj : j = m
  · exact hj ▸ hserved.le
  · have hflow : flows j = s.flows j := Function.update_of_ne hj _ _
    rw [hflow]
    split
    · exact Nat.zero_le _
    · exact le_rfl

/-- The `while` loop of `schedule_flows`. -/
def scheduleLoop (argmin : Argmin) (s : State n) : State n :=
  if _h : s.flowsToSchedule = [] then s
  else scheduleLoop argmin (s.scheduleSlot argmin)
termination_by s.framesLeft
decreasing_by exact framesLeft_scheduleSlot_lt argmin ‹_›

theorem scheduleLoop_of_nil {s : State n} (h : s.flowsToSchedule = []) :
    s.scheduleLoop argmin = s := by
  rw [scheduleLoop, dif_pos h]

theorem scheduleLoop_of_ne_nil {s : State n} (h : s.flowsToSchedule ≠ []) :
    s.scheduleLoop argmin = (s.scheduleSlot argmin).scheduleLoop argmin := by
  rw [scheduleLoop, dif_neg h]

/-- The loop ends: some number of slots empties the list. -/
theorem exists_iterate_eq_scheduleLoop (argmin : Argmin) (s : State n) :
    ∃ T, (scheduleSlot argmin)^[T] s = s.scheduleLoop argmin ∧
      (s.scheduleLoop argmin).flowsToSchedule = [] := by
  induction s using scheduleLoop.induct argmin with
  | case1 s hnil =>
      rw [scheduleLoop_of_nil hnil]
      exact ⟨0, rfl, hnil⟩
  | case2 s hne ih =>
      obtain ⟨T, hT, hnil⟩ := ih
      rw [scheduleLoop_of_ne_nil hne]
      exact ⟨T + 1, hT, hnil⟩

end State

/-- The state before the loop. -/
def start (flowSizes : Fin n → ℤ) : State n where
  flows i := Flow.new (flowSizes i)
  flowsToSchedule := List.finRange n
  time := 0

/-- The completion times `schedule_flows` prints. -/
def scheduleFlows (argmin : Argmin) (flowSizes : Fin n → ℤ) (i : Fin n) : ℚ :=
  (((start flowSizes).scheduleLoop argmin).flows i).completionTime

/-! ## The serial order of the flows -/

section ClosedForm

variable (flowSizes : Fin n → ℤ)

/-- Flows are served in the order of their sizes, equal ones by position. -/
def key (i : Fin n) : ℤ ×ₗ Fin n := toLex (flowSizes i, i)

/-- The number of slots each flow needs. -/
def slots (i : Fin n) : ℕ := frames (flowSizes i)

variable {flowSizes}

theorem key_injective : Function.Injective (key flowSizes) := fun _ _ h =>
  congrArg (fun p => (ofLex p).2) h

theorem size_le_of_key_lt {i j : Fin n} (h : key flowSizes i < key flowSizes j) :
    flowSizes i ≤ flowSizes j := by
  rcases (Prod.Lex.toLex_lt_toLex).mp h with hlt | heq
  · exact hlt.le
  · exact heq.1.le

theorem size_lt_of_key_lt {i j : Fin n} (h : key flowSizes i < key flowSizes j) (hji : j ≤ i) :
    flowSizes i < flowSizes j := by
  rcases (Prod.Lex.toLex_lt_toLex).mp h with hlt | heq
  · exact hlt
  · exact absurd heq.2 (not_lt.mpr hji)

theorem slots_le_of_key_le (i j : Fin n) (h : key flowSizes i ≤ key flowSizes j) :
    slots flowSizes i ≤ slots flowSizes j := by
  rcases h.eq_or_lt with heq | hlt
  · rw [key_injective heq]
  · exact frames_mono (Int.cast_le.mpr (size_le_of_key_lt hlt))

variable (flowSizes)

/-- The slot after which a flow is served, and the one after which it is done. -/
def firstSlot (i : Fin n) : ℕ := startSlot (key flowSizes) (slots flowSizes) i

@[inherit_doc firstSlot]
def lastSlot (i : Fin n) : ℕ := finishSlot (key flowSizes) (slots flowSizes) i

variable {flowSizes}

variable (flowSizes) in
theorem lastSlot_eq (i : Fin n) :
    lastSlot flowSizes i = firstSlot flowSizes i + slots flowSizes i :=
  finishSlot_eq (slots flowSizes) key_injective i

theorem firstSlot_lt_lastSlot (i : Fin n) : firstSlot flowSizes i < lastSlot flowSizes i := by
  have hpos : 0 < slots flowSizes i := frames_pos _
  rw [lastSlot_eq]
  omega

/-- A flow that is not done while another one is served comes after it. -/
theorem key_lt_of_pending {T : ℕ} {i m : Fin n} (hm : firstSlot flowSizes m ≤ T)
    (hi : T < lastSlot flowSizes i) (him : i ≠ m) : key flowSizes m < key flowSizes i := by
  refine lt_of_le_of_ne (not_lt.mp fun hlt => ?_) fun heq => him (key_injective heq.symm)
  have hle := finishSlot_le_startSlot (slots flowSizes) hlt
  exact absurd (hle.trans hm) (not_le.mpr hi)

/-- It does not start before the other one is done. -/
theorem lastSlot_le_firstSlot {T : ℕ} {i m : Fin n} (hm : firstSlot flowSizes m ≤ T)
    (hi : T < lastSlot flowSizes i) (him : i ≠ m) :
    lastSlot flowSizes m ≤ firstSlot flowSizes i :=
  finishSlot_le_startSlot _ (key_lt_of_pending hm hi him)

/-! ## The states of the loop -/

variable (flowSizes)

/-- A flow after `T` slots. -/
def flowAt (T : ℕ) (i : Fin n) : Flow where
  remainingSize := if lastSlot flowSizes i ≤ T then 0
    else flowSizes i - (T - firstSlot flowSizes i : ℕ) * payload
  startTime := 0
  completionTime := if lastSlot flowSizes i ≤ T then lastSlot flowSizes i * deltaT else -1

/-- The state after `T` slots. -/
def stateAt (T : ℕ) : State n where
  flows := flowAt flowSizes T
  flowsToSchedule := (List.finRange n).filter (T < lastSlot flowSizes ·)
  time := T * deltaT

/-- At most one flow has nothing to send. -/
def AtMostOneEmpty : Prop := ∀ i j, flowSizes i ≤ 0 → flowSizes j ≤ 0 → i = j

variable {flowSizes}

theorem flowAt_of_done {T : ℕ} {i : Fin n} (h : lastSlot flowSizes i ≤ T) :
    flowAt flowSizes T i = ⟨0, 0, lastSlot flowSizes i * deltaT⟩ := by
  simp [flowAt, h]

theorem flowAt_of_pending {T : ℕ} {i : Fin n} (h : T < lastSlot flowSizes i) :
    flowAt flowSizes T i =
      ⟨flowSizes i - (T - firstSlot flowSizes i : ℕ) * payload, 0, -1⟩ := by
  simp [flowAt, not_le.mpr h]

theorem flowAt_of_waiting {T : ℕ} {i : Fin n} (h : T ≤ firstSlot flowSizes i) :
    flowAt flowSizes T i = Flow.new (flowSizes i) := by
  rw [flowAt_of_pending (h.trans_lt (firstSlot_lt_lastSlot i)), Nat.sub_eq_zero_of_le h]
  simp [Flow.new]

theorem start_eq_stateAt : start flowSizes = stateAt flowSizes 0 := by
  have hpending : ∀ i, 0 < lastSlot flowSizes i := fun i =>
    (Nat.zero_le _).trans_lt (firstSlot_lt_lastSlot i)
  have hflows : (fun i => Flow.new (flowSizes i)) = flowAt flowSizes 0 := by
    funext i
    exact (flowAt_of_waiting (Nat.zero_le _)).symm
  simp [start, stateAt, hflows, hpending]

/-! ## One slot -/

/-- The packet of the flow that is served. -/
theorem packetSent_flowAt {T : ℕ} {m : Fin n} (hfirst : firstSlot flowSizes m ≤ T)
    (hlast : T < lastSlot flowSizes m) :
    (flowAt flowSizes T m).packetSent (T * deltaT + deltaT) = flowAt flowSizes (T + 1) m := by
  have hflow := flowAt_of_pending hlast
  have heq := lastSlot_eq flowSizes m
  have hsub : T + 1 - firstSlot flowSizes m = T - firstSlot flowSizes m + 1 := by omega
  -- one frame is enough for what is left exactly in the flow's last slot
  have hdone : (flowAt flowSizes T m).remainingSize ≤ payload ↔
      lastSlot flowSizes m ≤ T + 1 := by
    have hframes : slots flowSizes m ≤ T - firstSlot flowSizes m + 1 ↔
        (flowAt flowSizes T m).remainingSize ≤ payload := by
      rw [slots, frames_le_iff, hflow, Nat.cast_succ]
      constructor
      · rintro ⟨-, h⟩
        dsimp only
        linarith
      · intro h
        dsimp only at h
        exact ⟨by omega, by linarith⟩
    rw [← hframes]
    omega
  by_cases hnow : lastSlot flowSizes m ≤ T + 1
  · have hT : lastSlot flowSizes m = T + 1 := by omega
    rw [Flow.packetSent_of_le _ (hdone.mpr hnow), flowAt_of_done hnow, hflow, hT]
    simp only [Flow.mk.injEq, Nat.cast_succ, true_and]
    linarith
  · have hlt : payload < (flowAt flowSizes T m).remainingSize := not_le.mp fun h =>
      hnow (hdone.mp h)
    rw [Flow.packetSent_of_lt _ hlt, flowAt_of_pending (not_le.mp hnow), hflow, hsub]
    simp only [Flow.mk.injEq, Nat.cast_succ, and_self, and_true]
    linarith

/-- No other flow changes in the slot. -/
theorem flowAt_succ_of_ne {T : ℕ} {i m : Fin n} (hfirst : firstSlot flowSizes m ≤ T)
    (hlast : T < lastSlot flowSizes m) (him : i ≠ m) :
    flowAt flowSizes (T + 1) i = flowAt flowSizes T i := by
  by_cases hi : lastSlot flowSizes i ≤ T
  · rw [flowAt_of_done hi, flowAt_of_done (hi.trans (Nat.le_succ T))]
  · have hwaits := lastSlot_le_firstSlot hfirst (not_le.mp hi) him
    rw [flowAt_of_waiting (by omega), flowAt_of_waiting (by omega)]

/-- The loop serves the flow whose turn it is in the serial order. -/
theorem served_stateAt {T : ℕ} {m : Fin n} (hfirst : firstSlot flowSizes m ≤ T)
    (hlast : T < lastSlot flowSizes m) :
    (stateAt flowSizes T).flowsToSchedule[
      getMinIndex argmin (stateAt flowSizes T).remainingSizes]? = some m := by
  have hmem : m ∈ (stateAt flowSizes T).flowsToSchedule := by simp [stateAt, hlast]
  have hsorted : (stateAt flowSizes T).flowsToSchedule.Pairwise (· < ·) :=
    (List.pairwise_lt_finRange n).filter _
  have hpending : ∀ j ∈ (stateAt flowSizes T).flowsToSchedule, T < lastSlot flowSizes j := by
    intro j hj
    simpa [stateAt] using hj
  obtain ⟨before, after, hsplit⟩ := List.append_of_mem hmem
  rw [State.remainingSizes]
  rw [hsplit] at hsorted hpending ⊢
  obtain ⟨-, hcons, hlt⟩ := List.pairwise_append.mp hsorted
  -- the others still have their full size, which is not less than that of `m`
  have hle : (flowAt flowSizes T m).remainingSize ≤ flowSizes m := by
    have hnonneg : (0 : ℚ) ≤ (T - firstSlot flowSizes m : ℕ) * payload :=
      mul_nonneg (Nat.cast_nonneg _) payload_pos.le
    rw [flowAt_of_pending hlast]
    dsimp only
    linarith
  have hwaits : ∀ j, T < lastSlot flowSizes j → j ≠ m →
      key flowSizes m < key flowSizes j ∧ (flowAt flowSizes T j).remainingSize = flowSizes j := by
    intro j hj hjm
    have hstart := lastSlot_le_firstSlot hfirst hj hjm
    rw [flowAt_of_waiting (by omega)]
    exact ⟨key_lt_of_pending hfirst hj hjm, rfl⟩
  apply getElem?_getMinIndex
  · intro j hj
    have hjm : j < m := hlt j hj m List.mem_cons_self
    obtain ⟨hkey, hsize⟩ := hwaits j (hpending j (by simp [hj])) hjm.ne
    have := Int.cast_lt (R := ℚ).mpr (size_lt_of_key_lt hkey hjm.le)
    exact hsize ▸ hle.trans_lt this
  · intro j hj
    have hjm : m < j := (List.pairwise_cons.mp hcons).1 j hj
    obtain ⟨hkey, hsize⟩ := hwaits j (hpending j (by simp [hj])) hjm.ne'
    have := Int.cast_le (R := ℚ).mpr (size_le_of_key_lt hkey)
    exact hsize ▸ hle.trans this

/-- Of the flows in the list, those leave it that have had their slots.  An empty
flow would also leave it before its turn, but the only one has the first turn. -/
theorem isDone_flowAt_succ (hempty : AtMostOneEmpty flowSizes) {T : ℕ} {i m : Fin n}
    (hfirst : firstSlot flowSizes m ≤ T) (hlast : T < lastSlot flowSizes m)
    (hi : T < lastSlot flowSizes i) :
    (flowAt flowSizes (T + 1) i).isDone = true ↔ lastSlot flowSizes i ≤ T + 1 := by
  constructor
  · intro hdone
    by_contra hpending
    rw [flowAt_of_pending (not_le.mp hpending), Flow.isDone, decide_eq_true_eq] at hdone
    dsimp only at hdone
    rcases Nat.lt_or_ge T (firstSlot flowSizes i) with hwaits | hserved
    · have him : i ≠ m := by
        rintro rfl
        omega
      rw [Nat.sub_eq_zero_of_le hwaits, Nat.cast_zero, zero_mul, sub_zero] at hdone
      have hsize : flowSizes i ≤ 0 := by exact_mod_cast hdone
      have hle := size_le_of_key_lt (key_lt_of_pending hfirst hi him)
      exact him (hempty i m hsize (hle.trans hsize))
    · have hlt : ¬ slots flowSizes i ≤ T + 1 - firstSlot flowSizes i := by
        have := lastSlot_eq flowSizes i
        omega
      rw [slots, frames_le_iff] at hlt
      exact hlt ⟨by omega, by linarith⟩
  · intro hdone
    rw [flowAt_of_done hdone]
    rfl

/-- The loop goes from one of the states to the next. -/
theorem scheduleSlot_stateAt
    (hempty : AtMostOneEmpty flowSizes) {T : ℕ} {i : Fin n}
    (hi : T < lastSlot flowSizes i) :
    (stateAt flowSizes T).scheduleSlot argmin = stateAt flowSizes (T + 1) := by
  obtain ⟨m, hfirst, hlast⟩ := exists_running hi
  have htime : (T : ℚ) * deltaT + deltaT = (T + 1 : ℕ) * deltaT := by
    rw [Nat.cast_succ, add_mul, one_mul]
  have hflows : Function.update (flowAt flowSizes T) m
      ((flowAt flowSizes T m).packetSent ((T + 1 : ℕ) * deltaT)) = flowAt flowSizes (T + 1) := by
    funext j
    by_cases hj : j = m
    · subst hj
      rw [Function.update_self, ← htime, packetSent_flowAt hfirst hlast]
    · rw [Function.update_of_ne hj, flowAt_succ_of_ne hfirst hlast hj]
  rw [State.scheduleSlot_of_served (served_stateAt hfirst hlast)]
  simp only [stateAt, htime, hflows, State.mk.injEq, true_and, and_true, List.filter_filter]
  refine List.filter_congr fun j _ => ?_
  by_cases hj : T < lastSlot flowSizes j
  · have hdone := isDone_flowAt_succ hempty hfirst hlast hj
    by_cases hnow : lastSlot flowSizes j ≤ T + 1
    · simp [hdone.mpr hnow, not_lt.mpr hnow]
    · have hfalse : (flowAt flowSizes (T + 1) j).isDone = false :=
        Bool.eq_false_iff.mpr fun h => hnow (hdone.mp h)
      simp [hfalse, hj, not_le.mp hnow]
  · have hnot : ¬ T + 1 < lastSlot flowSizes j := by omega
    simp [hj, hnot]

/-- When all flows are done only the time goes on. -/
theorem scheduleSlot_stateAt_of_done {T : ℕ} (hdone : ∀ i, lastSlot flowSizes i ≤ T) :
    (stateAt flowSizes T).scheduleSlot argmin = stateAt flowSizes (T + 1) := by
  have hnil : ∀ U, T ≤ U → (List.finRange n).filter (U < lastSlot flowSizes ·) = [] := by
    intro U hU
    simp only [List.filter_eq_nil_iff, decide_eq_true_eq, not_lt]
    exact fun i _ => (hdone i).trans hU
  have hflows : flowAt flowSizes (T + 1) = flowAt flowSizes T := by
    funext i
    rw [flowAt_of_done (hdone i), flowAt_of_done ((hdone i).trans (Nat.le_succ T))]
  simp only [State.scheduleSlot, stateAt, hnil T le_rfl, hnil (T + 1) (Nat.le_succ T),
    List.getElem?_nil, hflows, Nat.cast_succ, add_mul, one_mul]

/-- The loop goes through these states. -/
theorem iterate_scheduleSlot_start (hempty : AtMostOneEmpty flowSizes) (T : ℕ) :
    (State.scheduleSlot argmin)^[T] (start flowSizes) = stateAt flowSizes T := by
  induction T with
  | zero => exact start_eq_stateAt
  | succ T ih =>
      rw [Function.iterate_succ_apply', ih]
      by_cases hdone : ∀ i, lastSlot flowSizes i ≤ T
      · exact scheduleSlot_stateAt_of_done hdone
      · obtain ⟨i, hi⟩ := not_forall.mp hdone
        exact scheduleSlot_stateAt hempty (not_le.mp hi)

/-- The completion times of the serial schedule. -/
theorem scheduleFlows_eq (hempty : AtMostOneEmpty flowSizes) (i : Fin n) :
    scheduleFlows argmin flowSizes i = lastSlot flowSizes i * deltaT := by
  obtain ⟨T, hT, hnil⟩ := State.exists_iterate_eq_scheduleLoop argmin (start flowSizes)
  rw [iterate_scheduleSlot_start hempty] at hT
  rw [← hT] at hnil
  have hdone : ∀ j, lastSlot flowSizes j ≤ T := by
    simpa [stateAt, List.filter_eq_nil_iff] using hnil
  rw [scheduleFlows, ← hT]
  exact congrArg Flow.completionTime (flowAt_of_done (hdone i))

end ClosedForm

/-! ## Flows that are never served -/

/-- A flow that is not in the list keeps the completion time it has. -/
theorem completionTime_scheduleLoop
    (s : State n) {j : Fin n} (hj : j ∉ s.flowsToSchedule) :
    ((s.scheduleLoop argmin).flows j).completionTime = (s.flows j).completionTime := by
  induction s using State.scheduleLoop.induct argmin with
  | case1 s hnil => rw [State.scheduleLoop_of_nil hnil]
  | case2 s hne ih =>
      obtain ⟨m, hm, hserved⟩ :=
        exists_getElem?_getMinIndex argmin hne fun i => (s.flows i).remainingSize
      have hjm : j ≠ m := fun h => hj (h ▸ hm)
      rw [State.scheduleLoop_of_ne_nil hne]
      rw [State.scheduleSlot_of_served hserved] at ih ⊢
      rw [ih fun h => hj (List.mem_of_mem_filter h)]
      exact congrArg Flow.completionTime (Function.update_of_ne hjm _ _)

/-- Of two empty flows one is dropped from the list in the first slot without
having been served: its completion time stays at the initial value. -/
theorem exists_scheduleFlows_eq_neg_one
    (argmin : Argmin) {flowSizes : Fin n → ℤ} (h : ¬ AtMostOneEmpty flowSizes) :
    ∃ i, scheduleFlows argmin flowSizes i = -1 := by
  simp only [AtMostOneEmpty, not_forall] at h
  obtain ⟨i, j, hi, hj, hij⟩ := h
  have hne : (start flowSizes).flowsToSchedule ≠ [] :=
    List.ne_nil_of_mem (List.mem_finRange i)
  obtain ⟨m, -, hserved⟩ :=
    exists_getElem?_getMinIndex argmin hne fun i =>
      ((start flowSizes).flows i).remainingSize
  obtain ⟨k, hk, hkm⟩ : ∃ k, flowSizes k ≤ 0 ∧ k ≠ m := by
    by_cases him : i = m
    · exact ⟨j, hj, fun hjm => hij (him.trans hjm.symm)⟩
    · exact ⟨i, hi, him⟩
  have hflow : ((start flowSizes).scheduleSlot argmin).flows k =
      Flow.new (flowSizes k) := by
    rw [State.scheduleSlot_of_served hserved]
    exact Function.update_of_ne hkm _ _
  have hdropped : k ∉ ((start flowSizes).scheduleSlot argmin).flowsToSchedule := by
    have hdone : (Flow.new (flowSizes k)).isDone = true :=
      decide_eq_true (Int.cast_nonpos.mpr hk)
    rw [← hflow] at hdone
    rw [State.scheduleSlot_of_served hserved] at hdone ⊢
    simp [hdone]
  refine ⟨k, ?_⟩
  rw [scheduleFlows, State.scheduleLoop_of_ne_nil hne, completionTime_scheduleLoop _ hdropped,
    hflow]
  rfl

end Ideal
end PFabric

import SmipMwp.Datapath.Telemetry
import Mathlib.Algebra.BigOperators.Group.List.Basic
import Mathlib.Data.List.Induction

/-!
# The packet counter and its readers

Every call of a forwarder adds the frames it received to `PACKETS_PROCESSED`, once and in a single
access. With `--metrics` a thread prints the counter every second and sets it back to zero; with
`--metrics-socket` a connection is answered by the counter as it stands. The threads of the
forwarders, of the reporter and of the socket run in any order.

No frame is lost between the readers, and none is printed twice: what was printed and what the
counter has left are all frames received (`printed_add_packetsProcessed`). So the socket answers
with all of them only as long as the reporter has printed none (`answered_iff`).
-/

namespace SmipMwp.Cli

open Datapath

/-- The forwarders of a process, and the counters they share. -/
structure Counted (ι : Type*) where
  forwarder : ι → Forwarder
  telemetry : Telemetry := {}

inductive CountedEvent (ι : Type*)
  /-- A forwarder's next call; it counts when it adds to `PACKETS_PROCESSED`. -/
  | call (i : ι) (c : RunStep)
  /-- A line of the reporter. -/
  | report
  /-- A connection on the metrics socket. -/
  | scrape

/-- The frames that a call polls. -/
def CountedEvent.frames {ι : Type*} : CountedEvent ι → ℕ
  | call _ c => c.call.frames.length
  | _ => 0

namespace Counted

variable {ι : Type*} [DecidableEq ι]

def step (p : Counted ι) : CountedEvent ι → Counted ι
  | .call i c =>
    let r := (p.forwarder i).exec p.telemetry c
    { forwarder := Function.update p.forwarder i r.forwarder
      telemetry := r.telemetry }
  | .report => { p with telemetry := { p.telemetry with packetsProcessed := 0 } }
  | .scrape => p

/-- The count that the reporter prints. -/
def printed (p : Counted ι) : CountedEvent ι → List ℕ
  | .report => [p.telemetry.packetsProcessed.toNat]
  | _ => []

/-- The count that the socket answers with. -/
def answered (p : Counted ι) : CountedEvent ι → List ℕ
  | .scrape => [p.telemetry.packetsProcessed.toNat]
  | _ => []

/-- The frames that a call has received; one that panics has received none. -/
def received (p : Counted ι) : CountedEvent ι → List ℕ
  | .call i c => [((p.forwarder i).exec p.telemetry c).stats.received]
  | _ => []

end Counted

/-! ## What a call adds -/

theorem exists_commits_processBatchSlices {f : Forwarder} {g : Telemetry} {ring : SliceRing}
    {frames : List Bytes} {r : BatchRun × SliceRing}
    (h : f.processBatchSlices g ring frames = some r) :
    ∃ received times, received ≤ frames.length ∧ r.1.Commits g received times := by
  rcases le_or_gt frames.length ring.capacity with hle | hgt
  · rcases eq_or_ne frames [] with rfl | hne
    · rw [Forwarder.processBatchSlices_nil] at h
      rw [← Option.some.inj h]
      exact ⟨0, 1, Nat.zero_le _, Forwarder.commits_idle _ g 1⟩
    · obtain ⟨ring', -, -, hr⟩ := f.processBatchSlices_eq_some g hle hne
      rw [hr] at h
      rw [← Option.some.inj h]
      exact ⟨_, _, (List.length_map _).le, f.commits_processSerial g _⟩
  · rw [f.processBatchSlices_eq_none g hgt] at h
    cases h

/-- A call adds the frames it has received to the counter, which are at most those it polls. -/
theorem exists_commits_exec (f : Forwarder) (g : Telemetry) (c : RunStep) :
    ∃ received times, received ≤ c.call.frames.length ∧
      (f.exec g c).Commits g received times := by
  obtain ⟨routes, c⟩ := c
  have hmcr (threads : ℕ) (frames : List Bytes) :=
    Forwarder.commits_processBatchMcr { f with routes := routes } g threads frames
  cases c with
  | processBatch threads frames =>
    simp only [Forwarder.exec, Forwarder.processBatch]
    split_ifs with hmode hempty hserial
    · exact ⟨_, _, le_rfl, hmcr threads frames⟩
    · exact ⟨0, 1, Nat.zero_le _, Forwarder.commits_idle _ g 1⟩
    · exact ⟨_, _, le_rfl, Forwarder.commits_processSerial { f with routes := routes } g frames⟩
    · exact ⟨_, _, le_rfl, Forwarder.commits_processParallel { f with routes := routes } g frames⟩
  | processBatchMcr threads frames => exact ⟨_, _, le_rfl, hmcr threads frames⟩
  | processBatchSprayFull threads frames => exact ⟨_, _, le_rfl, hmcr threads frames⟩
  | processBatchSlices ring frames =>
    simp only [Forwarder.exec]
    split
    · rename_i r _ h
      exact exists_commits_processBatchSlices h
    · exact ⟨0, 1, Nat.zero_le _, Forwarder.commits_idle _ g 1⟩

namespace Counted

variable {ι : Type*} [DecidableEq ι]

theorem run_append_singleton (p : Counted ι) (events : List (CountedEvent ι))
    (e : CountedEvent ι) : (events ++ [e]).foldl step p = step (events.foldl step p) e := by
  rw [List.foldl_append]
  rfl

/-- **Every frame is printed once.** While the frames polled stay below `2 ^ 64`, what the reporter
has printed and what the counter has left are together the frames that the calls have received, in
every order of the calls, the lines and the connections. -/
theorem printed_add_packetsProcessed (forwarder : ι → Forwarder) (events : List (CountedEvent ι))
    (h : (events.map CountedEvent.frames).sum < 2 ^ 64) :
    (runLog step printed ⟨forwarder, {}⟩ events).sum +
        (events.foldl step ⟨forwarder, {}⟩).telemetry.packetsProcessed.toNat =
      (runLog step received ⟨forwarder, {}⟩ events).sum := by
  -- The frames received are at most those polled, so the counter does not wrap.
  have hboth : (runLog step received ⟨forwarder, {}⟩ events).sum ≤
        (events.map CountedEvent.frames).sum ∧
      (runLog step printed ⟨forwarder, {}⟩ events).sum +
          (events.foldl step ⟨forwarder, {}⟩).telemetry.packetsProcessed.toNat =
        (runLog step received ⟨forwarder, {}⟩ events).sum := by
    induction events using List.reverseRecOn with
    | nil => exact ⟨le_rfl, rfl⟩
    | append_singleton events e ih =>
      rw [List.map_append, List.sum_append, List.map_singleton, List.sum_singleton] at h ⊢
      obtain ⟨hle, heq⟩ := ih (by omega)
      rw [runLog_append_singleton, runLog_append_singleton, run_append_singleton, List.sum_append,
        List.sum_append]
      generalize events.foldl step ⟨forwarder, {}⟩ = p at heq ⊢
      cases e with
      | call i c =>
        obtain ⟨r, times, hr, hcommits⟩ := exists_commits_exec (p.forwarder i) p.telemetry c
        have hcount : (step p (.call i c)).telemetry.packetsProcessed =
            p.telemetry.packetsProcessed + UInt64.ofNat r := hcommits.processed
        have hreceived : received p (.call i c) = [r] :=
          congrArg (fun n => [n]) hcommits.received_eq
        simp only [CountedEvent.frames] at h ⊢
        rw [hcount, hreceived, UInt64.toNat_add, UInt64.toNat_ofNat', List.sum_singleton]
        simp only [printed, List.sum_nil]
        omega
      | report =>
        simp only [printed, received, step, CountedEvent.frames, List.sum_singleton, List.sum_nil,
          UInt64.toNat_zero]
        omega
      | scrape =>
        simp only [printed, received, step, CountedEvent.frames, List.sum_nil]
        omega
  exact hboth.2

/-- The socket answers with all frames received exactly if no line had a count. -/
theorem answered_iff (forwarder : ι → Forwarder) (events : List (CountedEvent ι))
    (h : (events.map CountedEvent.frames).sum < 2 ^ 64) :
    answered (events.foldl step ⟨forwarder, {}⟩) .scrape =
        [(runLog step received ⟨forwarder, {}⟩ events).sum] ↔
      ∀ n ∈ runLog step printed ⟨forwarder, {}⟩ events, n = 0 := by
  have hsum := printed_add_packetsProcessed forwarder events h
  rw [answered, List.cons.injEq, and_iff_left rfl, ← hsum, ← List.sum_eq_zero_iff_forall_eq_nat]
  omega

/-- Two forwarders, a line between their batches, and a connection. -/
def twoBatches : List (CountedEvent Bool) :=
  let routes := (zeroForwarder [] false "primary").routes
  [.call true ⟨routes, .processBatch 1 [zeroPacket [], []]⟩, .report,
    .call false ⟨routes, .processBatchMcr 2 [zeroPacket [7]]⟩, .scrape]

theorem printed_add_packetsProcessed_twoBatches :
    (runLog step printed ⟨fun mcr => zeroForwarder [] mcr "primary", {}⟩ twoBatches).sum +
        (twoBatches.foldl step
          ⟨fun mcr => zeroForwarder [] mcr "primary", {}⟩).telemetry.packetsProcessed.toNat =
      (runLog step received ⟨fun mcr => zeroForwarder [] mcr "primary", {}⟩ twoBatches).sum :=
  printed_add_packetsProcessed _ twoBatches (by decide)

end Counted

end SmipMwp.Cli

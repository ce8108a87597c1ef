import HashStorm.Lib.Machine
import Mathlib.Data.Int.Basic
import Mathlib.Logic.Function.Basic
import Mathlib.Tactic.Ring

/-!
# Eviction of idle workers

Every share puts a token of its worker into the bucket of a timing wheel that the
minute after `Ttl` names, and every sweep empties the next bucket, counted from the
start of the process. The two indices agree only up to a phase that the start time
decides. A token that is swept before `Ttl` has passed is dropped and its worker
keeps none. Along runs where no share meets such a sweep, every worker present has
a token that will be swept between `Ttl` and twice `Ttl` after its last share.
-/

namespace HashStorm.Live

open Machine

/-- `(string poolId, string address, string miner)`. -/
structure WorkerKey where
  poolId : String
  address : String
  miner : String
  deriving DecidableEq, Repr

/-- The key of a worker, after `address ??= string.Empty` and `miner ??= string.Empty`. -/
def WorkerKey.of (poolId : String) (address miner : Option String) : WorkerKey :=
  ⟨poolId, address.getD "", miner.getD ""⟩

/-- `LiveHashrateState.Buckets`. -/
abbrev Buckets : Nat := 64

/-- `LiveHashrateState.Ttl` in seconds. -/
def Ttl : Int := 32 * 60

/-- `LiveHashrateState.SweepInterval` in seconds. -/
def SweepInterval : Int := 60

/-- `LiveHashrateState.ExpireToken`. -/
structure ExpireToken where
  key : WorkerKey
  genAtInsert : Int32
  deriving DecidableEq, Repr

variable {Ring : Type}

/-- The dictionaries of `LiveHashrateState` about workers, each over all shards, and
the timing wheel. -/
structure LiveHashrateState (Ring : Type) where
  workerRings : WorkerKey → Option Ring
  workerLastSeen : WorkerKey → Option Int
  gen : WorkerKey → Option Int32
  wheel : Fin Buckets → List ExpireToken
  currentBucketIdx : UInt32

namespace LiveHashrateState

/-- The state before the first share. -/
def initial : LiveHashrateState Ring where
  workerRings _ := none
  workerLastSeen _ := none
  gen _ := none
  wheel _ := []
  currentBucketIdx := 0

/-- `ForWorker`: `GetOrAdd` of the worker's ring. -/
def forWorker [Inhabited Ring] (s : LiveHashrateState Ring) (key : WorkerKey) :
    LiveHashrateState Ring :=
  let ring := (s.workerRings key).getD default
  { s with workerRings := Function.update s.workerRings key (some ring) }

/-- `TouchWorker`. -/
def touchWorker (s : LiveHashrateState Ring) (key : WorkerKey) (nowSec : Int) :
    LiveHashrateState Ring :=
  { s with workerLastSeen := Function.update s.workerLastSeen key (some nowSec) }

/-- `(int)((expirySec / 60) & (Buckets - 1))`. -/
def bucketIdx (expirySec : Int) : Fin Buckets :=
  ⟨(expirySec.tdiv 60 % 64).toNat, by
    have := Int.emod_lt_of_pos (expirySec.tdiv 60) (by decide : (0 : Int) < 64)
    rw [Buckets]
    omega⟩

/-- `ScheduleExpiration`. -/
def scheduleExpiration (s : LiveHashrateState Ring) (key : WorkerKey) (nowSec : Int) :
    LiveHashrateState Ring :=
  let gen := match s.gen key with
    | none => 1
    | some old => old + 1
  let idx := bucketIdx (nowSec + Ttl)
  { s with
    gen := Function.update s.gen key (some gen)
    wheel := Function.update s.wheel idx (s.wheel idx ++ [⟨key, gen⟩]) }

/-- `TryRemoveWorker`. -/
def tryRemoveWorker (s : LiveHashrateState Ring) (key : WorkerKey) :
    Bool × LiveHashrateState Ring :=
  let ok1 := (s.workerLastSeen key).isSome
  let ok2 := (s.workerRings key).isSome
  (ok1 || ok2,
    { s with
      workerLastSeen := Function.update s.workerLastSeen key none
      workerRings := Function.update s.workerRings key none
      gen := Function.update s.gen key none })

/-- The body of the loop of `SweepTick`: what happens to a dequeued token. -/
def sweepToken (now : Int) (removed : Nat) (s : LiveHashrateState Ring) (tok : ExpireToken) :
    Nat × LiveHashrateState Ring :=
  match s.workerLastSeen tok.key with
  | none => (removed, s)
  | some last =>
    let expired := decide (Ttl ≤ now - last)
    if expired && s.gen tok.key == some tok.genAtInsert then
      let (ok, s') := s.tryRemoveWorker tok.key
      (if ok then removed + 1 else removed, s')
    else (removed, s)

/-- The loop of `SweepTick` over the tokens of the bucket. -/
def sweepTokens (now : Int) : List ExpireToken → Nat → LiveHashrateState Ring →
    Nat × LiveHashrateState Ring
  | [], removed, s => (removed, s)
  | tok :: toks, removed, s =>
    let (removed', s') := sweepToken now removed s tok
    sweepTokens now toks removed' s'

/-- The bucket the next sweep empties. -/
def sweepIdx (s : LiveHashrateState Ring) : Fin Buckets :=
  ⟨((s.currentBucketIdx + 1) &&& 63).toNat, by
    rw [UInt32.toNat_and]
    exact Nat.lt_of_le_of_lt Nat.and_le_right (by decide)⟩

/-- `SweepTick` at `now`: the number of removed workers and the state. -/
def sweepTick (s : LiveHashrateState Ring) (now : Int) : Nat × LiveHashrateState Ring :=
  let idx := s.sweepIdx
  sweepTokens now (s.wheel idx) 0
    { s with
      wheel := Function.update s.wheel idx []
      currentBucketIdx := s.currentBucketIdx + 1 }

/-- The part of `ShareRecorder.TrackLiveShare` about the worker. -/
def trackLiveShare [Inhabited Ring] (s : LiveHashrateState Ring) (key : WorkerKey)
    (nowSec : Int) : LiveHashrateState Ring :=
  ((s.forWorker key).touchWorker key nowSec).scheduleExpiration key nowSec

/-- The worker is in `WorkerLastSeen` or in `WorkerRings`. -/
def Present (s : LiveHashrateState Ring) (w : WorkerKey) : Prop :=
  (s.workerLastSeen w).isSome ∨ (s.workerRings w).isSome

instance (s : LiveHashrateState Ring) (w : WorkerKey) : Decidable (s.Present w) :=
  inferInstanceAs (Decidable (_ ∨ _))

/-- The worker has a token of its current generation in some bucket. -/
def HasToken (s : LiveHashrateState Ring) (w : WorkerKey) : Prop :=
  ∃ b gen, s.gen w = some gen ∧ ⟨w, gen⟩ ∈ s.wheel b

section Sweep

variable {s : LiveHashrateState Ring} {now : Int} {removed : Nat} {tok : ExpireToken}
  {toks : List ExpireToken}

/-- The sweep removes the worker of this token. -/
def Expires (s : LiveHashrateState Ring) (now : Int) (tok : ExpireToken) : Prop :=
  s.gen tok.key = some tok.genAtInsert ∧
    ∃ last, s.workerLastSeen tok.key = some last ∧ Ttl ≤ now - last

/-- Nothing is known about the worker. -/
def Gone (s : LiveHashrateState Ring) (w : WorkerKey) : Prop :=
  s.workerLastSeen w = none ∧ s.workerRings w = none ∧ s.gen w = none

/-- The same is known about the worker. -/
def SameAt (s s' : LiveHashrateState Ring) (w : WorkerKey) : Prop :=
  s'.workerLastSeen w = s.workerLastSeen w ∧ s'.workerRings w = s.workerRings w ∧
    s'.gen w = s.gen w

theorem SameAt.refl (s : LiveHashrateState Ring) (w : WorkerKey) : s.SameAt s w := ⟨rfl, rfl, rfl⟩

theorem SameAt.gone {s' : LiveHashrateState Ring} {w : WorkerKey} (h : s.SameAt s' w)
    (hs : s.Gone w) : s'.Gone w := by
  obtain ⟨hseen, hring, hgen⟩ := h
  exact ⟨hseen.trans hs.1, hring.trans hs.2.1, hgen.trans hs.2.2⟩

/-- A token expires alike in states that know the same about its worker. -/
theorem SameAt.expires_iff {s' : LiveHashrateState Ring} (h : s.SameAt s' tok.key) :
    s'.Expires now tok ↔ s.Expires now tok := by
  obtain ⟨hseen, -, hgen⟩ := h
  simp only [Expires, hseen, hgen]

theorem tryRemoveWorker_gone (s : LiveHashrateState Ring) (key : WorkerKey) :
    (s.tryRemoveWorker key).2.Gone key := by
  simp [tryRemoveWorker, Gone]

theorem tryRemoveWorker_sameAt {key w : WorkerKey} (h : w ≠ key) :
    s.SameAt (s.tryRemoveWorker key).2 w := by
  simp [tryRemoveWorker, SameAt, h]

/-- A dequeued token removes its worker, or nothing happens. -/
theorem sweepToken_cases (now : Int) (removed : Nat) (s : LiveHashrateState Ring)
    (tok : ExpireToken) :
    s.Expires now tok ∧ (sweepToken now removed s tok).2 = (s.tryRemoveWorker tok.key).2 ∨
      ¬s.Expires now tok ∧ (sweepToken now removed s tok).2 = s := by
  simp only [sweepToken, Expires]
  cases hlast : s.workerLastSeen tok.key with
  | none => exact Or.inr ⟨by simp, rfl⟩
  | some last =>
    by_cases hexpired : Ttl ≤ now - last
    · by_cases hgen : s.gen tok.key = some tok.genAtInsert
      · exact Or.inl ⟨⟨hgen, last, rfl, hexpired⟩, by simp [hexpired, hgen]⟩
      · exact Or.inr ⟨by simp [hgen], by simp [hgen]⟩
    · refine Or.inr ⟨?_, by simp [hexpired]⟩
      rintro ⟨-, last', hlast', hle⟩
      cases hlast'
      exact hexpired hle

@[simp] theorem sweepToken_wheel : (sweepToken now removed s tok).2.wheel = s.wheel := by
  rcases sweepToken_cases now removed s tok with ⟨-, h⟩ | ⟨-, h⟩ <;> rw [h]
  rfl

@[simp] theorem sweepToken_currentBucketIdx :
    (sweepToken now removed s tok).2.currentBucketIdx = s.currentBucketIdx := by
  rcases sweepToken_cases now removed s tok with ⟨-, h⟩ | ⟨-, h⟩ <;> rw [h]
  rfl

theorem sweepTokens_cons :
    sweepTokens now (tok :: toks) removed s =
      sweepTokens now toks (sweepToken now removed s tok).1 (sweepToken now removed s tok).2 := rfl

@[simp] theorem sweepTokens_wheel : (sweepTokens now toks removed s).2.wheel = s.wheel := by
  induction toks generalizing removed s with
  | nil => rfl
  | cons tok toks ih => rw [sweepTokens_cons, ih, sweepToken_wheel]

@[simp] theorem sweepTokens_currentBucketIdx :
    (sweepTokens now toks removed s).2.currentBucketIdx = s.currentBucketIdx := by
  induction toks generalizing removed s with
  | nil => rfl
  | cons tok toks ih => rw [sweepTokens_cons, ih, sweepToken_currentBucketIdx]

/-- Sweeping a bucket removes the workers of the tokens that expire, and no others. -/
theorem sweepTokens_cases (w : WorkerKey) :
    (∃ tok ∈ toks, tok.key = w ∧ s.Expires now tok) ∧ (sweepTokens now toks removed s).2.Gone w ∨
      (∀ tok ∈ toks, tok.key = w → ¬s.Expires now tok) ∧
        s.SameAt (sweepTokens now toks removed s).2 w := by
  induction toks generalizing removed s with
  | nil => exact Or.inr ⟨by simp, SameAt.refl s w⟩
  | cons tok toks ih =>
    rw [sweepTokens_cons]
    rcases sweepToken_cases now removed s tok with ⟨hexpires, hs'⟩ | ⟨hexpires, hs'⟩
    · rw [hs']
      by_cases hw : w = tok.key
      · -- the worker is gone, and no token brings it back
        have hgone : (s.tryRemoveWorker tok.key).2.Gone w := by
          rw [hw]
          exact tryRemoveWorker_gone s tok.key
        refine Or.inl ⟨⟨tok, List.mem_cons_self, hw.symm, hexpires⟩, ?_⟩
        rcases ih with ⟨-, h⟩ | ⟨-, h⟩
        · exact h
        · exact h.gone hgone
      · have hsame := tryRemoveWorker_sameAt (s := s) hw
        rcases ih with ⟨⟨tok', hmem, rfl, h⟩, hgone⟩ | ⟨hnone, h⟩
        · exact Or.inl ⟨⟨tok', List.mem_cons_of_mem _ hmem, rfl, hsame.expires_iff.mp h⟩, hgone⟩
        · refine Or.inr ⟨?_, h.1.trans hsame.1, h.2.1.trans hsame.2.1, h.2.2.trans hsame.2.2⟩
          intro tok' hmem hkey
          rcases List.mem_cons.mp hmem with rfl | hmem
          · exact absurd hkey.symm hw
          · subst hkey
            exact fun h' => hnone tok' hmem rfl (hsame.expires_iff.mpr h')
    · rw [hs']
      rcases ih with ⟨⟨tok', hmem, hkey, h⟩, hgone⟩ | ⟨hnone, h⟩
      · exact Or.inl ⟨⟨tok', List.mem_cons_of_mem _ hmem, hkey, h⟩, hgone⟩
      · refine Or.inr ⟨?_, h⟩
        intro tok' hmem hkey
        rcases List.mem_cons.mp hmem with rfl | hmem
        · exact hexpires
        · exact hnone tok' hmem hkey

theorem sweepIdx_val (s : LiveHashrateState Ring) :
    s.sweepIdx.val = (s.currentBucketIdx.toNat + 1) % 64 := by
  have hand : ∀ n : Nat, n &&& 63 = n % 64 := fun n => Nat.and_two_pow_sub_one_eq_mod n 6
  simp only [sweepIdx, UInt32.toNat_and, UInt32.toNat_add, UInt32.reduceToNat, hand]
  omega

/-- After 1970 the minutes are divided as they are written. -/
theorem bucketIdx_val {expirySec : Int} (h : 0 ≤ expirySec) :
    ((bucketIdx expirySec).val : Int) = expirySec / 60 % 64 := by
  simp only [bucketIdx, Int.tdiv_eq_ediv_of_nonneg h]
  omega

/-- The buckets are swept one after the other. -/
theorem sweepIdx_sweepTick :
    ((s.sweepTick now).2.sweepIdx.val : Nat) = (s.sweepIdx.val + 1) % 64 := by
  simp only [sweepIdx_val, sweepTick, sweepTokens_currentBucketIdx, UInt32.toNat_add,
    UInt32.reduceToNat]
  omega

/-- A sweep keeps the buckets it does not empty. -/
theorem sweepTick_wheel {b : Fin Buckets} (h : b ≠ s.sweepIdx) :
    (s.sweepTick now).2.wheel b = s.wheel b := by
  simp [sweepTick, h]

/-- What a sweep does to a worker. -/
theorem sweepTick_cases (s : LiveHashrateState Ring) (now : Int) (w : WorkerKey) :
    (∃ tok ∈ s.wheel s.sweepIdx, tok.key = w ∧ s.Expires now tok) ∧ (s.sweepTick now).2.Gone w ∨
      (∀ tok ∈ s.wheel s.sweepIdx, tok.key = w → ¬s.Expires now tok) ∧
        s.SameAt (s.sweepTick now).2 w := by
  let cleared : LiveHashrateState Ring := { s with
    wheel := Function.update s.wheel s.sweepIdx []
    currentBucketIdx := s.currentBucketIdx + 1 }
  exact sweepTokens_cases (s := cleared) w

end Sweep

section Share

variable [Inhabited Ring] {s : LiveHashrateState Ring} {key w : WorkerKey} {nowSec : Int}

@[simp] theorem trackLiveShare_workerLastSeen :
    (s.trackLiveShare key nowSec).workerLastSeen key = some nowSec := by
  simp [trackLiveShare, touchWorker, scheduleExpiration]

@[simp] theorem trackLiveShare_sweepIdx :
    (s.trackLiveShare key nowSec).sweepIdx = s.sweepIdx := rfl

theorem trackLiveShare_sameAt (s : LiveHashrateState Ring) (h : w ≠ key) (nowSec : Int) :
    s.SameAt (s.trackLiveShare key nowSec) w := by
  simp [trackLiveShare, forWorker, touchWorker, scheduleExpiration, SameAt, h]

/-- A share leaves the tokens in the wheel. -/
theorem mem_wheel_trackLiveShare {tok : ExpireToken} {b : Fin Buckets} (h : tok ∈ s.wheel b) :
    tok ∈ (s.trackLiveShare key nowSec).wheel b := by
  simp only [trackLiveShare, forWorker, touchWorker, scheduleExpiration, Function.update_apply]
  split
  · rename_i hb
    subst hb
    exact List.mem_append_left _ h
  · exact h

/-- A share puts a token of the new generation into the bucket of its expiry. -/
theorem trackLiveShare_token (s : LiveHashrateState Ring) (key : WorkerKey) (nowSec : Int) :
    ∃ gen, (s.trackLiveShare key nowSec).gen key = some gen ∧
      ⟨key, gen⟩ ∈ (s.trackLiveShare key nowSec).wheel (bucketIdx (nowSec + Ttl)) := by
  simp [trackLiveShare, forWorker, touchWorker, scheduleExpiration]

end Share

end LiveHashrateState

/-- A share of a worker or a sweep, with the time at which it happens. -/
inductive Event where
  | share (poolId : String) (address miner : Option String) (nowSec : Int)
  | sweepTick (now : Int)
  deriving DecidableEq, Repr

/-- The live state, the time, the time of the last sweep (of the start before the
first one), and what has happened, latest first. -/
structure Process (Ring : Type) where
  live : LiveHashrateState Ring
  now : Int
  lastSweep : Int
  history : List Event

/-- The process at its start. -/
def Process.start (time : Int) : Process Ring := ⟨.initial, time, time, []⟩

/-- Times do not decrease, and sweeps are one interval apart. -/
def step [Inhabited Ring] (p : Process Ring) (e : Event) : Option (Process Ring) :=
  match e with
  | .share poolId address miner nowSec =>
    if p.now ≤ nowSec then
      some { p with
        live := p.live.trackLiveShare (.of poolId address miner) nowSec
        now := nowSec
        history := e :: p.history }
    else none
  | .sweepTick now =>
    if p.now ≤ now ∧ now = p.lastSweep + SweepInterval then
      some ⟨(p.live.sweepTick now).2, now, now, e :: p.history⟩
    else none

/-- The time of the last share of a worker. -/
def lastShare (w : WorkerKey) : List Event → Option Int
  | [] => none
  | .share poolId address miner nowSec :: history =>
    if WorkerKey.of poolId address miner = w then some nowSec else lastShare w history
  | .sweepTick _ :: history => lastShare w history

/-- The number of sweeps at or after a time. -/
def sweepsFrom (time : Int) : List Event → Nat
  | [] => 0
  | .share .. :: history => sweepsFrom time history
  | .sweepTick now :: history => sweepsFrom time history + if time ≤ now then 1 else 0

/-- What is expected of the eviction in a state of the process. -/
structure Evicts [Inhabited Ring] (p : Process Ring) : Prop where
  /-- Every worker present has a token of its current generation. -/
  tracked : ∀ w, p.live.Present w → p.live.HasToken w
  /-- A worker is removed by a sweep, and not before `Ttl` has passed. -/
  removed : ∀ e p' w, step p e = some p' → p.live.Present w → ¬p'.live.Present w →
    ∃ now last, e = .sweepTick now ∧ lastShare w p.history = some last ∧ Ttl ≤ now - last
  /-- After `Buckets` sweeps behind `Ttl` a worker is gone. -/
  evicted : ∀ w last, lastShare w p.history = some last →
    Buckets ≤ sweepsFrom (last + Ttl) p.history → ¬p.live.Present w

/-- When the bucket is swept next. -/
def Process.nextSweep (p : Process Ring) (b : Fin Buckets) : Int :=
  p.lastSweep + SweepInterval * (((b.val : Int) - p.live.sweepIdx.val) % 64 + 1)

/-- The bucket of a share is not swept before `Ttl` has passed. -/
def InPhase (p : Process Ring) : Event → Prop
  | .share _ _ _ nowSec =>
    nowSec + Ttl ≤ p.nextSweep (LiveHashrateState.bucketIdx (nowSec + Ttl))
  | .sweepTick _ => True

instance (p : Process Ring) : ∀ e, Decidable (InPhase p e)
  | .share _ _ _ nowSec =>
    inferInstanceAs (Decidable (nowSec + Ttl ≤
      p.nextSweep (LiveHashrateState.bucketIdx (nowSec + Ttl))))
  | .sweepTick _ => isTrue trivial

section Invariant

variable {p : Process Ring} {w : WorkerKey} {last : Int}

/-- The worker's token is swept between `Ttl` and twice `Ttl` after its last share. -/
def Awaited (p : Process Ring) (w : WorkerKey) (last : Int) : Prop :=
  p.live.workerLastSeen w = some last ∧ lastShare w p.history = some last ∧
    ∃ b gen, p.live.gen w = some gen ∧ ⟨w, gen⟩ ∈ p.live.wheel b ∧
      last + Ttl ≤ p.nextSweep b ∧ p.nextSweep b ≤ last + 2 * Ttl

/-- What holds in every state of a run whose shares are in phase. -/
structure Inv (p : Process Ring) : Prop where
  lastSweep_le : p.lastSweep ≤ p.now
  sweeps : ∀ time, SweepInterval * sweepsFrom time p.history ≤
    max 0 (p.lastSweep + SweepInterval - time)
  workers : ∀ w, ¬p.live.Present w ∨ ∃ last, Awaited p w last

theorem inv_start (time : Int) : Inv (Process.start time : Process Ring) where
  lastSweep_le := Int.le_refl time
  sweeps t := by simp [Process.start, sweepsFrom]
  workers w := Or.inl (by simp [Process.start, LiveHashrateState.initial,
    LiveHashrateState.Present])

/-- The next sweep of any bucket is at most one turn of the wheel away. -/
theorem Process.nextSweep_bounds (p : Process Ring) (b : Fin Buckets) :
    p.lastSweep + SweepInterval ≤ p.nextSweep b ∧ p.nextSweep b ≤ p.lastSweep + 2 * Ttl := by
  simp only [Process.nextSweep, SweepInterval, Ttl]
  omega

theorem Process.nextSweep_sweepIdx (p : Process Ring) :
    p.nextSweep p.live.sweepIdx = p.lastSweep + SweepInterval := by
  simp [Process.nextSweep]

/-- A sweep does not move the next sweep of the other buckets. -/
theorem nextSweep_sweepTick {history : List Event} {now : Int} {b : Fin Buckets}
    (hnow : now = p.lastSweep + SweepInterval) (hb : b ≠ p.live.sweepIdx) :
    (⟨(p.live.sweepTick now).2, now, now, history⟩ : Process Ring).nextSweep b =
      p.nextSweep b := by
  have hne : b.val ≠ p.live.sweepIdx.val := fun h => hb (Fin.ext h)
  have hidx : (p.live.sweepTick now).2.sweepIdx.val = (p.live.sweepIdx.val + 1) % 64 :=
    LiveHashrateState.sweepIdx_sweepTick
  have hlt : b.val < 64 := b.isLt
  have hlt' : p.live.sweepIdx.val < 64 := p.live.sweepIdx.isLt
  simp only [Process.nextSweep]
  rw [hidx, hnow]
  simp only [SweepInterval]
  push_cast
  omega

variable [Inhabited Ring] {p' : Process Ring}

/-- A share in phase keeps the invariant. -/
theorem Inv.share (h : Inv p) {poolId : String} {address miner : Option String} {nowSec : Int}
    (hphase : InPhase p (.share poolId address miner nowSec))
    (hstep : step p (.share poolId address miner nowSec) = some p') : Inv p' := by
  simp only [step] at hstep
  split at hstep
  · rename_i hnow
    cases hstep
    refine ⟨Int.le_trans h.lastSweep_le hnow, h.sweeps, fun w => ?_⟩
    set key := WorkerKey.of poolId address miner with hkey
    by_cases hw : w = key
    · obtain ⟨gen, hgen, hmem⟩ := p.live.trackLiveShare_token key nowSec
      have hbounds := p.nextSweep_bounds (LiveHashrateState.bucketIdx (nowSec + Ttl))
      have hlast := h.lastSweep_le
      subst hw
      refine Or.inr ⟨nowSec, by simp, by simp [lastShare, ← hkey], _, gen, hgen, hmem, hphase, ?_⟩
      simp only [Process.nextSweep, LiveHashrateState.trackLiveShare_sweepIdx] at hbounds ⊢
      omega
    · obtain ⟨hseen, hring, hgen⟩ := p.live.trackLiveShare_sameAt hw nowSec
      rcases h.workers w with habsent | ⟨last, hlast, hshare, b, gen, hcur, hmem, hbounds⟩
      · left
        rwa [LiveHashrateState.Present, hseen, hring]
      · refine Or.inr ⟨last, hseen.trans hlast, ?_, b, gen, hgen.trans hcur,
          LiveHashrateState.mem_wheel_trackLiveShare hmem, hbounds⟩
        rw [lastShare, if_neg (fun h => hw (h.symm.trans hkey.symm))]
        exact hshare
  · cases hstep

/-- A sweep keeps the invariant: the bucket of an awaited token is either not swept,
or late enough to remove the worker. -/
theorem Inv.sweepTick (h : Inv p) {now : Int} (hstep : step p (.sweepTick now) = some p') :
    Inv p' := by
  simp only [step] at hstep
  split at hstep
  · rename_i hdue
    obtain ⟨-, hnow⟩ := hdue
    cases hstep
    refine ⟨Int.le_refl now, fun time => ?_, fun w => ?_⟩
    · have hsweeps := h.sweeps time
      simp only [sweepsFrom, SweepInterval] at hsweeps hnow ⊢
      split <;> push_cast <;> omega
    · rcases p.live.sweepTick_cases now w with ⟨-, hgone⟩ | ⟨hnone, hsame⟩
      · left
        rw [LiveHashrateState.Present, hgone.1, hgone.2.1]
        simp
      · obtain ⟨hseen, hring, hgen⟩ := hsame
        rcases h.workers w with habsent | ⟨last, hlast, hshare, b, gen, hcur, hmem, hlate, hsoon⟩
        · left
          rwa [LiveHashrateState.Present, hseen, hring]
        · have hb : b ≠ p.live.sweepIdx := by
            rintro rfl
            rw [p.nextSweep_sweepIdx, ← hnow] at hlate
            exact hnone _ hmem rfl ⟨hcur, last, hlast, by omega⟩
          refine Or.inr ⟨last, hseen.trans hlast, hshare, b, gen, hgen.trans hcur, ?_, ?_⟩
          · rwa [LiveHashrateState.sweepTick_wheel hb]
          · rw [nextSweep_sweepTick hnow hb]
            exact ⟨hlate, hsoon⟩
  · cases hstep

theorem Inv.step (h : Inv p) {e : Event} (hphase : InPhase p e) (hstep : step p e = some p') :
    Inv p' := by
  cases e with
  | share poolId address miner nowSec => exact h.share hphase hstep
  | sweepTick now => exact h.sweepTick hstep

/-- A step removes a worker only by a sweep that finds it expired. -/
theorem expired_of_removed {e : Event} (hstep : Live.step p e = some p') (hp : p.live.Present w)
    (hp' : ¬p'.live.Present w) :
    ∃ now last, e = .sweepTick now ∧ p.live.workerLastSeen w = some last ∧ Ttl ≤ now - last := by
  cases e with
  | share poolId address miner nowSec =>
    simp only [Live.step] at hstep
    split at hstep
    · cases hstep
      refine absurd ?_ hp'
      by_cases hw : w = WorkerKey.of poolId address miner
      · subst hw
        exact Or.inl (by simp)
      · obtain ⟨hseen, hring, -⟩ := p.live.trackLiveShare_sameAt hw nowSec
        rwa [LiveHashrateState.Present, hseen, hring]
    · cases hstep
  | sweepTick now =>
    simp only [Live.step] at hstep
    split at hstep
    · cases hstep
      rcases p.live.sweepTick_cases now w with ⟨⟨tok, -, hkey, hexpires⟩, -⟩ | ⟨-, hseen, hring, -⟩
      · obtain ⟨-, last, hlast, hle⟩ := hexpires
        exact ⟨now, last, rfl, hkey ▸ hlast, hle⟩
      · refine absurd ?_ hp'
        rwa [LiveHashrateState.Present, hseen, hring]
    · cases hstep

theorem Inv.evicts (h : Inv p) : Evicts p where
  tracked w hp := by
    rcases h.workers w with habsent | ⟨last, -, -, b, gen, hcur, hmem, -⟩
    · exact absurd hp habsent
    · exact ⟨b, gen, hcur, hmem⟩
  removed e p' w hstep hp hp' := by
    obtain ⟨now, last, rfl, hlast, hle⟩ := expired_of_removed hstep hp hp'
    rcases h.workers w with habsent | ⟨last', hlast', hshare, -⟩
    · exact absurd hp habsent
    · cases hlast.symm.trans hlast'
      exact ⟨now, last, rfl, hshare, hle⟩
  evicted w last hshare hsweeps hp := by
    rcases h.workers w with habsent | ⟨last', -, hshare', b, -, -, -, -, hsoon⟩
    · exact habsent hp
    · cases hshare.symm.trans hshare'
      have hnext := (p.nextSweep_bounds b).1
      have hcount := h.sweeps (last + Ttl)
      simp only [SweepInterval, Ttl, Buckets] at hnext hsoon hcount hsweeps
      omega

/-- **Idle workers are evicted along every run whose shares are in phase.** -/
theorem run_evicts {time : Int} {events : List Event} {p : Process Ring}
    (hphase : Meets Live.step InPhase (Process.start time : Process Ring) events)
    (hrun : run Live.step (Process.start time) events = some p) : Evicts p :=
  (run_invariant Inv (fun _ _ _ h hphase hstep => h.step hphase hstep) (inv_start time) hphase
    hrun).evicts

section Phase

/-- A share does not lie in the past, nor behind the time the next sweep is due. -/
def Punctual (p : Process Ring) : Event → Prop
  | .share _ _ _ nowSec => p.now ≤ nowSec ∧ nowSec ≤ p.lastSweep + SweepInterval
  | .sweepTick _ => True

/-- The bucket index counts the intervals since the start. -/
structure Ticking (time : Int) (p : Process Ring) : Prop where
  start_le : time ≤ p.lastSweep
  lastSweep_le : p.lastSweep ≤ p.now
  whole : (p.lastSweep - time) % SweepInterval = 0
  sweepIdx_eq : (p.live.sweepIdx.val : Int) = ((p.lastSweep - time) / SweepInterval + 1) % 64

omit [Inhabited Ring] in
theorem ticking_start (time : Int) : Ticking time (Process.start time : Process Ring) where
  start_le := Int.le_refl time
  lastSweep_le := Int.le_refl time
  whole := by simp [Process.start]
  sweepIdx_eq := by
    simp only [LiveHashrateState.sweepIdx_val, Process.start, Int.sub_self]
    rfl

theorem Ticking.step {time : Int} (h : Ticking time p) {e : Event}
    (hstep : Live.step p e = some p') : Ticking time p' := by
  cases e with
  | share poolId address miner nowSec =>
    simp only [Live.step] at hstep
    split at hstep
    · rename_i hnow
      cases hstep
      exact ⟨h.start_le, Int.le_trans h.lastSweep_le hnow, h.whole, h.sweepIdx_eq⟩
    · cases hstep
  | sweepTick now =>
    simp only [Live.step] at hstep
    split at hstep
    · rename_i hdue
      cases hstep
      obtain ⟨hstart, -, hwhole, hidx⟩ := h
      have hnow := hdue.2
      simp only [SweepInterval] at hnow hwhole hidx
      have hnext : (p.live.sweepTick now).2.sweepIdx.val = (p.live.sweepIdx.val + 1) % 64 :=
        LiveHashrateState.sweepIdx_sweepTick
      refine ⟨by simp only; omega, Int.le_refl now, by simp only [SweepInterval]; omega, ?_⟩
      simp only [SweepInterval]
      omega
    · cases hstep

/-- **In which minutes the process may start.** When the start lies in one of the minutes
1 to 31 of a turn of the wheel, every share that is not later than the next sweep is in
phase. -/
theorem meets_inPhase {time : Int} (htime : 0 ≤ time) (hminute : 1 ≤ time / 60 % 64)
    (hminute' : time / 60 % 64 ≤ 31) {events : List Event}
    (h : Meets Live.step Punctual (Process.start time : Process Ring) events) :
    Meets Live.step InPhase (Process.start time : Process Ring) events := by
  refine h.of_invariant (Ticking time) (fun _ _ _ h _ hstep => h.step hstep) ?_
    (ticking_start time)
  intro p e hticking hpunctual
  cases e with
  | share poolId address miner nowSec =>
    obtain ⟨hstart, hlast, hwhole, hidx⟩ := hticking
    obtain ⟨hnow, hdue⟩ := hpunctual
    have hbucket := LiveHashrateState.bucketIdx_val (show 0 ≤ nowSec + Ttl by rw [Ttl]; omega)
    simp only [InPhase, Process.nextSweep]
    rw [hbucket, hidx]
    simp only [SweepInterval, Ttl] at hwhole hdue ⊢
    omega
  | sweepTick now => trivial

end Phase

end Invariant

/-- A share ten seconds after the start, and sweeps. -/
def shareAndSweeps (time : Int) (sweeps : Nat) : List Event :=
  .share "pool" (some "miner") (some "rig") (time + 10) ::
    (List.range sweeps).map fun k => .sweepTick (time + 60 * (k + 1))

/-- A process that starts in the second minute. -/
theorem run_evicts_second_minute :
    ∃ p : Process Unit, run step (Process.start 60) (shareAndSweeps 60 40) = some p ∧ Evicts p := by
  have hrun : (run step (Process.start 60 : Process Unit) (shareAndSweeps 60 40)).isSome := by
    decide +kernel
  obtain ⟨p, hp⟩ := Option.isSome_iff_exists.mp hrun
  exact ⟨p, hp, run_evicts (by decide +kernel) hp⟩

/-- A process that starts at 1700001000, out of phase: the sixth sweep drops the only
token of the worker. -/
theorem not_evicts_out_of_phase :
    ¬∀ (time : Int) (events : List Event) (p : Process Unit),
      run step (Process.start time) events = some p → Evicts p := by
  intro h
  have hrun : ∃ p ∈ run step (Process.start 1700001000 : Process Unit)
      (shareAndSweeps 1700001000 6), p.live.Present ⟨"pool", "miner", "rig"⟩ ∧
        ∀ b, p.live.wheel b = [] := by
    decide +kernel
  obtain ⟨p, hp, hpresent, hempty⟩ := hrun
  obtain ⟨b, gen, -, hmem⟩ := (h _ _ p hp).tracked _ hpresent
  rw [hempty b] at hmem
  cases hmem

end HashStorm.Live

import OcrOrchestrator.Worker.Replicas
import OcrOrchestrator.Worker.Chain
import OcrOrchestrator.Worker.Coverage

/-!
# Concurrent reapers recover an orphan once

An orphan waits as it was left until a reaper claims it.  The claim restarts its clock, so as long
as the reaper settles it in time nobody else can claim it; and the reaper that has it adds at most
one entry for it and settles it before it comes to the end with it.

## Main definitions

* `Scan.Has` — where a claimed orphan is with the reaper that claimed it.
* `Replicas.Waiting`, `Replicas.Taken`, `Replicas.Fate` — what has become of an orphan so far.
* `Replicas.Orphaned` — what a dead consumer has left behind.

## Main results

* `Replicas.recovered_once` — every orphan is claimed at most once and replaced at most once.
* `Replicas.orphaned_of_reach` — every pending entry of a fleet can be an orphan.
-/

namespace OcrOrchestrator

open Lib

/-- Every command keeps the ids in order. -/
theorem Cmd.sound_exec {r : Redis} (cfg : Settings) (o : Oracle) (c : Cmd)
    (h : ∀ lane, (r.streams lane).Sound) (lane : Lane) :
    ((c.exec cfg o r).2.streams lane).Sound := by
  rcases Cmd.exec_state cfg o c r with hs | hs <;> rw [hs]
  · exact h lane
  · cases c with
    | xaddMain => exact Redis.streams_setStream h ((h .main).xadd _ _) lane
    | xack => exact Redis.streams_setStream h ((h _).xack _) lane
    | xdel => exact Redis.streams_setStream h ((h _).xdel _) lane
    | _ => exact h lane

/-- **One step** of a fleet keeps the ids in order. -/
theorem Step.sound {cfg : Settings} {f f' : Fleet} {l : Label}
    (hstep : Step cfg f l f') (h : ∀ lane, (f.redis.streams lane).Sound) :
    ∀ lane, (f'.redis.streams lane).Sound := by
  cases hstep with
  | submit => exact h
  | enqueue key now traceId => exact Redis.streams_setStream h ((h _).xadd _ _)
  | idle _ procs streams hsame => exact fun lane => (h lane).same (hsame lane)
  | take hl htaken hstarts => exact Redis.streams_setStream h (htaken.sound (h _))
  | crash => exact h
  | run => exact Cmd.sound_exec cfg _ _ h

/-! ## What becomes of an orphan -/

/-- Where a claimed orphan is with the reaper that claimed it: still to be begun with, in its
hands, or over. -/
inductive Scan.Has (redis : Redis) (fresh dropped : List (Lane × StreamId))
    (entry : Lane × StreamId) (scan : Scan) : Prop
  | queued (hcount : scan.agenda.held.count entry = 1) (hcurrent : scan.busyWith ≠ some entry)
      (hfresh : entry ∉ fresh)
  | current {prog : Py Unit} {φ : Progress} (hcurrent : scan.current = some (entry, prog))
      (hagenda : entry ∉ scan.agenda.held)
      (hprog : prog.Follows (entryProtocol entry) Cleared φ)
      (hfresh : fresh.count entry ≤ φ.added.toNat)
      (hacked : φ.acked = true → (redis.streams entry.1).lines entry.2 = [])
      (hdeleted : φ.deleted = true → (redis.streams entry.1).stored? entry.2 = none)
  | finished (hheld : entry ∉ scan.held) (hfresh : fresh.count entry ≤ 1)
      (hend : entry ∈ dropped ∨ redis.Gone entry)

namespace Scan.Has
variable {redis : Redis} {fresh dropped : List (Lane × StreamId)} {entry : Lane × StreamId}
  {scan scan' : Scan}

theorem count_fresh_le (h : scan.Has redis fresh dropped entry) : fresh.count entry ≤ 1 := by
  cases h with
  | queued _ _ hfresh => simp [List.count_eq_zero.mpr hfresh]
  | @current _ φ _ _ _ hfresh => exact hfresh.trans φ.added.toNat_le
  | finished _ hfresh => exact hfresh

/-- The scan is cut short, and what it held is dropped. -/
theorem cut (h : scan.Has redis fresh dropped entry) (hdropped : ∀ x ∈ scan.held, x ∈ dropped) :
    (⟨none, .idle⟩ : Scan).Has redis fresh dropped entry := by
  refine .finished List.not_mem_nil h.count_fresh_le ?_
  cases h with
  | queued hcount =>
    refine .inl (hdropped entry (List.mem_append_right _ ?_))
    exact List.count_pos_iff.mp (by omega)
  | current hcurrent =>
    refine .inl (hdropped entry (List.mem_append_left _ ?_))
    simp [busyWith, hcurrent]
  | finished _ _ hend => exact hend

/-- The entry is on the agenda as often as it was. -/
theorem rearrange (h : scan.Has redis fresh dropped entry) (hnone : scan.current = none)
    (hnone' : scan'.current = none)
    (hcount' : scan'.agenda.held.count entry = scan.agenda.held.count entry) :
    scan'.Has redis fresh dropped entry := by
  cases h with
  | queued hcount hcurrent hfresh =>
    refine .queued (hcount'.trans hcount) ?_ hfresh
    simp [busyWith, hnone']
  | current hcurrent =>
    rw [hnone] at hcurrent
    cases hcurrent
  | finished hheld hfresh hend =>
    refine .finished ?_ hfresh hend
    simp only [held, busyWith, hnone, hnone', Option.map_none, Option.toList_none, List.nil_append,
      ← List.count_eq_zero, hcount'] at hheld ⊢
    exact hheld

/-- The reaper begins with an entry that it has claimed. -/
theorem begin {e : Lane × StreamId} {prog : Py Unit} (h : scan.Has redis fresh dropped entry)
    (hnone : scan.current = none) (hcurrent' : scan'.current = some (e, prog))
    (hperm : (e :: scan'.agenda.held).Perm scan.agenda.held)
    (hprog : prog.Follows (entryProtocol e) Cleared ⟨false, false, false⟩) :
    scan'.Has redis fresh dropped entry := by
  have hcount' := hperm.count_eq entry
  cases h with
  | queued hcount hcurrent hfresh =>
    by_cases he : e = entry
    · subst he
      rw [List.count_cons_self] at hcount'
      refine .current hcurrent' (List.count_eq_zero.mp (by omega)) hprog ?_ (fun h => nomatch h)
        (fun h => nomatch h)
      simp [List.count_eq_zero.mpr hfresh]
    · rw [List.count_cons_of_ne he] at hcount'
      refine .queued (hcount'.trans hcount) ?_ hfresh
      simpa [busyWith, hcurrent'] using he
  | current hcurrent =>
    rw [hnone] at hcurrent
    cases hcurrent
  | finished hheld hfresh hend =>
    refine .finished ?_ hfresh hend
    have hmem := hperm.mem_iff (a := entry)
    simpa [held, busyWith, hnone, hcurrent', ← hmem] using hheld

/-- The reaper is busy with another entry. -/
theorem elsewhere {e : Lane × StreamId} {prog prog' : Py Unit}
    (h : scan.Has redis fresh dropped entry) (hcurrent : scan.current = some (e, prog))
    (hcurrent' : scan'.current = some (e, prog')) (hagenda : scan'.agenda = scan.agenda)
    (he : e ≠ entry) : scan'.Has redis fresh dropped entry := by
  cases h with
  | queued hcount _ hfresh =>
    refine .queued (hagenda ▸ hcount) ?_ hfresh
    simpa [busyWith, hcurrent'] using he
  | current hself =>
    rw [hcurrent] at hself
    exact absurd (Prod.mk.inj (Option.some.inj hself)).1 he
  | finished hheld hfresh hend =>
    refine .finished ?_ hfresh hend
    simpa [held, busyWith, hcurrent, hcurrent', hagenda] using hheld

/-- The reaper has come to the end with an entry. -/
theorem finish {e : Lane × StreamId} (h : scan.Has redis fresh dropped entry)
    (hcurrent' : scan.current = some (e, .ret ())) :
    (⟨none, scan.agenda⟩ : Scan).Has redis fresh dropped entry := by
  have hfresh := h.count_fresh_le
  cases h with
  | queued hcount _ hfresh => exact .queued hcount (by simp [busyWith]) hfresh
  | @current prog φ hcurrent hagenda hprog _ hacked hdeleted =>
    obtain ⟨rfl, rfl⟩ := Prod.mk.inj (Option.some.inj (hcurrent'.symm.trans hcurrent))
    have hcleared : φ.acked = true ∧ φ.deleted = true := hprog
    refine .finished ?_ hfresh (.inr ⟨hacked hcleared.1, hdeleted hcleared.2⟩)
    simpa [held, busyWith] using hagenda
  | finished hheld _ hend =>
    refine .finished ?_ hfresh hend
    simp only [held, List.mem_append, not_or] at hheld ⊢
    exact ⟨by simp [busyWith], hheld.2⟩

/-- Others do something that leaves the entry alone. -/
theorem frame {redis' : Redis} {fresh' dropped' : List (Lane × StreamId)}
    (h : scan.Has redis fresh dropped entry) (hspares : redis.Spares entry redis')
    (hcount : fresh'.count entry = fresh.count entry) (hdropped : dropped ⊆ dropped') :
    scan.Has redis' fresh' dropped' entry := by
  cases h with
  | queued hheld hcurrent hfresh =>
    refine .queued hheld hcurrent ?_
    rwa [← List.count_eq_zero, hcount, List.count_eq_zero]
  | current hcurrent hagenda hprog hfresh hacked hdeleted =>
    refine .current hcurrent hagenda hprog (hcount.trans_le hfresh) ?_ ?_
    · exact fun hdone => hspares.lines.trans (hacked hdone)
    · exact fun hdone => hspares.stored.trans (hdeleted hdone)
  | finished hheld hfresh hend =>
    exact .finished hheld (hcount.trans_le hfresh)
      (hend.imp (fun hlost => hdropped hlost) hspares.gone)

/-- A command about the entry that the reaper is busy with is answered. -/
theorem answer (h : scan.Has redis fresh dropped entry) (cfg : Settings) (o : Oracle) {cmd : Cmd}
    {k : Except Exn (Ret cmd) → Py Unit}
    (hcall : scan.current = some (entry, .call cmd k))
    (hknown : (redis.streams entry.1).lastId.before entry.2 = false) :
    (⟨some (entry, k (cmd.exec cfg o redis).1), scan.agenda⟩ : Scan).Has (cmd.exec cfg o redis).2
        (if cmd.adds && !o.noEffect then fresh ++ [entry] else fresh) dropped entry ∧
      ∀ p ∈ ((cmd.exec cfg o redis).2.streams entry.1).lines entry.2,
        p ∈ (redis.streams entry.1).lines entry.2 := by
  cases h with
  | queued _ hcurrent =>
    simp [busyWith, hcall] at hcurrent
  | finished hheld =>
    simp [held, busyWith, hcall] at hheld
  | @current prog φ hcurrent hagenda hprog hfresh hacked hdeleted =>
    obtain ⟨-, rfl⟩ := Prod.mk.inj (Option.some.inj (hcall.symm.trans hcurrent))
    obtain ⟨φ', hmove, hrest⟩ := hprog (cmd.exec cfg o redis).1 trivial
    obtain ⟨hlines, hacked'⟩ := lines_exec hknown hmove hacked
    exact ⟨.current rfl hagenda hrest (count_fresh_exec hmove hfresh) hacked'
      (stored?_exec hknown hmove hdeleted), hlines⟩

end Scan.Has

namespace Replicas

/-- Nobody has touched the orphan: it is pending and stored as it was left. -/
structure Untouched (cfg : Settings) (s : Replicas) (entry : Lane × StreamId) (p : Pending)
    (e : Option Entry) : Prop where
  asked : entry ∉ s.asked
  line : (s.redis.streams entry.1).lines entry.2 = [p]
  stored : (s.redis.streams entry.1).stored? entry.2 = e
  /-- A reaper that is about to ask for it has seen that it is idle. -/
  listed : ∀ c ids todo claimed, (s.scans c).agenda = .claiming entry.1 ids todo claimed →
    entry.2 ∈ ids → p.idle cfg.reaperMinIdleMs s.now = true

/-- No reaper has claimed the orphan: nobody has touched it, or there was a line and no entry, and
`XCLAIM` has swept the line away. -/
structure Waiting (cfg : Settings) (s : Replicas) (entry : Lane × StreamId) (p : Pending)
    (e : Option Entry) : Prop where
  claims : s.claimsOf entry = []
  fresh : entry ∉ s.fresh
  held : ∀ c, entry ∉ (s.scans c).held
  rest : s.Untouched cfg entry p e ∨ e = none ∧ s.redis.Gone entry

/-- One reaper has claimed the orphan, once, and nobody else has it. -/
structure Taken (s : Replicas) (entry : Lane × StreamId) (cl : Claim) : Prop where
  claims : s.claimsOf entry = [cl]
  others : ∀ c, c ≠ cl.consumer → entry ∉ (s.scans c).held
  since : ∀ p ∈ (s.redis.streams entry.1).lines entry.2, p.deliveredAt = cl.since
  has : (s.scans cl.consumer).Has s.redis s.fresh s.dropped entry

/-- An orphan is waiting, or has been taken. -/
def Fate (cfg : Settings) (s : Replicas) (entry : Lane × StreamId) (p : Pending)
    (e : Option Entry) : Prop :=
  s.Waiting cfg entry p e ∨ ∃ cl, s.Taken entry cl

/-- Whatever a reaper is busy with, it keeps to the protocol. -/
def Works (s : Replicas) : Prop :=
  ∀ c entry prog, (s.scans c).current = some (entry, prog) →
    ∃ φ, prog.Follows (entryProtocol entry) Cleared φ

section Steps
variable {cfg : Settings} {s : Replicas} {entry : Lane × StreamId} {p : Pending}
  {stored : Option Entry} {c : Consumer} {scan : Scan} {cl : Claim}

/-- Others do something that leaves the orphan alone. -/
theorem Fate.frame (h : s.Fate cfg entry p stored) {redis : Redis} {now : ℕ}
    {fresh dropped : List (Lane × StreamId)} (hspares : s.redis.Spares entry redis)
    (hnow : s.now ≤ now) (hcount : fresh.count entry = s.fresh.count entry)
    (hdropped : s.dropped ⊆ dropped) :
    Fate cfg { s with redis, now, fresh, dropped } entry p stored := by
  rcases h with hwaiting | ⟨cl, htaken⟩
  · refine .inl ⟨hwaiting.claims, ?_, hwaiting.held, ?_⟩
    · rw [← List.count_eq_zero, hcount, List.count_eq_zero]
      exact hwaiting.fresh
    · refine hwaiting.rest.imp (fun hleft => ?_) (And.imp_right hspares.gone)
      refine ⟨hleft.asked, hspares.lines.trans hleft.line, hspares.stored.trans hleft.stored, ?_⟩
      intro c ids todo claimed hagenda hmem
      exact Pending.idle_mono hnow (hleft.listed c ids todo claimed hagenda hmem)
  · refine .inr ⟨cl, htaken.claims, htaken.others, ?_, htaken.has.frame hspares hcount hdropped⟩
    intro p' hp'
    exact htaken.since p' (hspares.lines ▸ hp')

/-- A reaper goes on with its scan, and the orphan is where it was. -/
theorem Fate.goOn (h : s.Fate cfg entry p stored) (c : Consumer) (scan : Scan)
    (hheld : entry ∉ (s.scans c).held → entry ∉ scan.held)
    (hhas : (s.scans c).Has s.redis s.fresh s.dropped entry →
      scan.Has s.redis s.fresh s.dropped entry)
    (hlisted : s.Untouched cfg entry p stored → ∀ ids todo claimed,
      scan.agenda = .claiming entry.1 ids todo claimed → entry.2 ∈ ids →
      p.idle cfg.reaperMinIdleMs s.now = true) :
    (s.goOn c scan).Fate cfg entry p stored := by
  rcases h with hwaiting | ⟨cl, htaken⟩
  · refine .inl ⟨hwaiting.claims, hwaiting.fresh, ?_, hwaiting.rest.imp_left fun hleft => ?_⟩
    · intro c'
      by_cases hc : c' = c
      · subst hc
        simpa [Replicas.goOn] using hheld (hwaiting.held c')
      · simpa [Replicas.goOn, hc] using hwaiting.held c'
    · refine ⟨hleft.asked, hleft.line, hleft.stored, ?_⟩
      intro c' ids todo claimed
      by_cases hc : c' = c
      · subst hc
        simpa [Replicas.goOn] using hlisted hleft ids todo claimed
      · simpa [Replicas.goOn, hc] using hleft.listed c' ids todo claimed
  · refine .inr ⟨cl, htaken.claims, ?_, htaken.since, ?_⟩
    · intro c' hne
      by_cases hc : c' = c
      · subst hc
        simpa [Replicas.goOn] using hheld (htaken.others c' hne)
      · simpa [Replicas.goOn, hc] using htaken.others c' hne
    · by_cases hc : cl.consumer = c
      · rw [hc]
        simpa [Replicas.goOn] using hhas (hc ▸ htaken.has)
      · simpa [Replicas.goOn, hc] using htaken.has

/-- A scan is cut short. -/
theorem Fate.abort (h : s.Fate cfg entry p stored) (c : Consumer) :
    (s.abort c).Fate cfg entry p stored := by
  have hlost := h.frame (.refl _ _) le_rfl rfl (List.subset_append_left s.dropped (s.scans c).held)
  refine hlost.goOn c ⟨none, .idle⟩
    (fun _ => List.not_mem_nil) (fun hhas => ?_) (fun _ _ _ _ hagenda => nomatch hagenda)
  exact hhas.cut fun e he => List.mem_append_right _ he

/-- A reaper has a command about an entry answered. -/
theorem Fate.work {o : Oracle} {e : Lane × StreamId} {cmd : Cmd}
    {k : Except Exn (Ret cmd) → Py Unit} {agenda : Agenda} (h : s.Fate cfg entry p stored)
    (hknown : (s.redis.streams entry.1).lastId.before entry.2 = false) (hworks : s.Works)
    (hscan : s.scans c = ⟨some (e, .call cmd k), agenda⟩) :
    (s.work cfg c o e cmd k agenda).Fate cfg entry p stored := by
  have hcall : (s.scans c).current = some (e, .call cmd k) := by rw [hscan]
  have hagenda : (s.scans c).agenda = agenda := by rw [hscan]
  by_cases he : e = entry
  · subst he
    have hheld : e ∈ (s.scans c).held := by simp [Scan.held, Scan.busyWith, hcall]
    rcases h with hwaiting | ⟨cl, htaken⟩
    · exact absurd hheld (hwaiting.held c)
    · obtain rfl : cl.consumer = c := by
        by_contra hne
        exact htaken.others c (Ne.symm hne) hheld
      obtain ⟨hhas, hlines⟩ := htaken.has.answer cfg { o with now := s.now } hcall hknown
      refine .inr ⟨cl, htaken.claims, ?_, fun p hp => htaken.since p (hlines p hp), ?_⟩
      · intro c' hne
        simpa [Replicas.work, Replicas.goOn, hne] using htaken.others c' hne
      · rw [hagenda] at hhas
        have hscan' : (s.work cfg cl.consumer o e cmd k agenda).scans cl.consumer =
            ⟨some (e, _), agenda⟩ := Function.update_self ..
        rw [hscan']
        exact hhas
  · obtain ⟨φ, hfollows⟩ := hworks c e _ hcall
    have hother : cmd.settled? ≠ some entry := by
      intro hsettled
      obtain ⟨φ', hmove, -⟩ := hfollows (cmd.exec cfg { o with now := s.now } s.redis).1 trivial
      cases cmd with
      | xack lane id => exact he (hmove.1.symm.trans (Option.some.inj hsettled))
      | xdel lane id => exact he (hmove.1.symm.trans (Option.some.inj hsettled))
      | _ => cases hsettled
    have hcount : (if cmd.adds && !o.noEffect then s.fresh ++ [e] else s.fresh).count entry =
        s.fresh.count entry := by
      split <;> simp [List.count_append, he]
    have hframe := h.frame (Redis.spares_exec cfg { o with now := s.now } hknown hother) le_rfl
      hcount (List.Subset.refl _)
    refine hframe.goOn c ⟨some (e, _), agenda⟩ ?_ ?_ ?_
    · simp [Scan.held, Scan.busyWith, hcall, hagenda]
    · exact fun hhas => hhas.elsewhere hcall rfl hagenda.symm he
    · intro hleft ids todo claimed hclaiming
      exact hleft.listed c ids todo claimed (hagenda.trans hclaiming)

/-- A claim that does not return the orphan is not one of its claims. -/
theorem claimsOf_claim {lane : Lane} {ids : List StreamId} (todo : List Lane)
    (claimed : List PageTask)
    (hreturned : ∀ e ∈ ((s.redis.streams lane).xclaimIds c cfg.reaperMinIdleMs s.now ids).1,
      (lane, e.id) ≠ entry) :
    (s.claim cfg c lane ids todo claimed).claimsOf entry = s.claimsOf entry := by
  simp only [Replicas.claimsOf, Replicas.claim, Replicas.goOn, List.filter_append,
    List.append_right_eq_self, List.filter_eq_nil_iff, List.mem_map]
  rintro cl ⟨e, he, rfl⟩
  simpa using hreturned e he

/-- What is returned and is not the orphan adds nothing to how often it is held. -/
theorem count_held_sorting {lane : Lane} {entries : List Entry} (todo : List Lane)
    (claimed : List PageTask) (hreturned : ∀ e ∈ entries, (lane, e.id) ≠ entry) :
    (Agenda.sorting lane entries todo claimed).held.count entry =
      (claimed.map PageTask.entry).count entry := by
  rw [Agenda.held, List.count_append, List.count_eq_zero.mpr, Nat.zero_add]
  simp only [List.mem_map, not_exists, not_and]
  exact hreturned

/-- A claim that does not get the orphan changes nothing for it. -/
theorem Fate.passedOver {lane : Lane} {ids : List StreamId} {todo : List Lane}
    {claimed : List PageTask} (h : s.Fate cfg entry p stored)
    (hscan : s.scans c = ⟨none, .claiming lane ids todo claimed⟩)
    (hasked : s.claimsOf entry = [] → entry ∉ ids.map fun id => (lane, id))
    (hnot : lane = entry.1 → ∀ p ∈ (s.redis.streams lane).lines entry.2,
      (decide (entry.2 ∈ ids) && p.idle cfg.reaperMinIdleMs s.now) = false) :
    (s.claim cfg c lane ids todo claimed).Fate cfg entry p stored := by
  let out := (s.redis.streams lane).xclaimIds c cfg.reaperMinIdleMs s.now ids
  have hspares : s.redis.Spares entry (s.redis.setStream lane out.2) :=
    Redis.spares_setStream fun hlane => (TaskStream.spares_xclaimIds (hnot hlane)).1
  have hreturned : ∀ e ∈ out.1, (lane, e.id) ≠ entry := by
    rintro e he rfl
    have hnone := (TaskStream.spares_xclaimIds (c := c) (hnot rfl)).2
    rw [List.filter_eq_nil_iff] at hnone
    exact hnone e he (by simp)
  have hrecorded : Fate cfg { s with
      claims := s.claims ++ out.1.map fun e : Entry => (⟨(lane, e.id), c, s.now⟩ : Claim)
      asked := s.asked ++ ids.map fun id => (lane, id) } entry p stored := by
    have hclaims := claimsOf_claim todo claimed hreturned
    rcases h with hwaiting | ⟨cl, htaken⟩
    · refine .inl ⟨hclaims.trans hwaiting.claims, hwaiting.fresh, hwaiting.held,
        hwaiting.rest.imp_left fun hleft => ?_⟩
      exact ⟨List.not_mem_append hleft.asked (hasked hwaiting.claims), hleft.line, hleft.stored,
        hleft.listed⟩
    · exact .inr ⟨cl, hclaims.trans htaken.claims, htaken.others, htaken.since, htaken.has⟩
  have hcount := count_held_sorting todo claimed hreturned
  have hframe := hrecorded.frame hspares le_rfl rfl (List.Subset.refl _)
  refine hframe.goOn c ⟨none, .sorting lane out.1 todo claimed⟩ ?_ ?_
    (fun _ _ _ _ hagenda => nomatch hagenda)
  · rw [hscan]
    simp only [Scan.held, Scan.busyWith, Option.map_none, Option.toList_none, List.nil_append,
      ← List.count_eq_zero, hcount]
    exact fun h => h
  · rw [hscan]
    exact fun hhas => hhas.rearrange rfl rfl hcount

/-- A reaper that asks for a waiting orphan takes it. -/
theorem Waiting.claim {e : Entry} {ids : List StreamId} {todo : List Lane}
    {claimed : List PageTask} (h : s.Waiting cfg entry p (some e))
    (hscan : s.scans c = ⟨none, .claiming entry.1 ids todo claimed⟩) (hmem : entry.2 ∈ ids) :
    (s.claim cfg c entry.1 ids todo claimed).Taken entry ⟨entry, c, s.now⟩ := by
  have hleft : s.Untouched cfg entry p (some e) := h.rest.resolve_right fun hswept =>
    nomatch hswept.1
  have hidle := hleft.listed c ids todo claimed (by rw [hscan]) hmem
  have hlines : ((s.redis.streams entry.1).xclaimIds c cfg.reaperMinIdleMs s.now ids).2.lines
      entry.2 = [⟨entry.2, c, s.now⟩] := by
    rw [TaskStream.lines_xclaimIds, hleft.line]
    simp [hmem, hidle, hleft.stored]
  have hreturned : ((s.redis.streams entry.1).xclaimIds c cfg.reaperMinIdleMs s.now ids).1.filter
      (fun e => decide (e.id = entry.2)) = [e] := by
    rw [TaskStream.returned_xclaimIds, hleft.line]
    simp [hmem, hidle, hleft.stored]
  have heid : e.id = entry.2 := by simpa using List.find?_some hleft.stored
  refine ⟨?_, ?_, ?_, ?_⟩
  · have hself : ((fun cl : Claim => decide (cl.entry = entry)) ∘
        fun e : Entry => (⟨(entry.1, e.id), c, s.now⟩ : Claim)) =
        fun e => decide (e.id = entry.2) := by
      funext e'
      simp [Prod.ext_iff]
    have hold := h.claims
    simp only [Replicas.claimsOf] at hold
    simp only [Replicas.claimsOf, Replicas.claim, Replicas.goOn, List.filter_append, hold,
      List.filter_map, hself, hreturned, heid, List.map_cons, List.map_nil, List.nil_append]
  · intro c' hne
    simpa [Replicas.claim, Replicas.goOn, hne] using h.held c'
  · intro p' hp'
    simp only [Replicas.claim, Replicas.goOn, Redis.setStream, Function.update_self, hlines,
      List.mem_singleton] at hp'
    rw [hp']
  · have hclaimed : (claimed.map PageTask.entry).count entry = 0 := by
      have := h.held c
      rw [hscan] at this
      simpa [Scan.held, Scan.busyWith, Agenda.held, List.count_eq_zero] using this
    refine .queued ?_ ?_ h.fresh
    · simp only [Replicas.claim, Replicas.goOn, Function.update_self, Agenda.held,
        List.count_append, hclaimed, Nat.add_zero]
      have hsame : ((· == entry) ∘ fun e : Entry => (entry.1, e.id)) =
          fun e => decide (e.id = entry.2) := by
        funext e'
        simp [beq_eq_decide, Prod.ext_iff]
      rw [List.count, List.countP_map, hsame, List.countP_eq_length_filter, hreturned]
      rfl
    · simp [Replicas.claim, Replicas.goOn, Scan.busyWith]

/-- A reaper that asks for an entry of which only the line is left sweeps the line away. -/
theorem Waiting.sweep {ids : List StreamId} {todo : List Lane} {claimed : List PageTask}
    (h : s.Waiting cfg entry p none)
    (hscan : s.scans c = ⟨none, .claiming entry.1 ids todo claimed⟩) (hmem : entry.2 ∈ ids) :
    (s.claim cfg c entry.1 ids todo claimed).Waiting cfg entry p none := by
  have hstored : (s.redis.streams entry.1).stored? entry.2 = none := by
    rcases h.rest with hleft | ⟨-, hgone⟩
    · exact hleft.stored
    · exact hgone.stored
  have hreturned : ∀ e ∈ ((s.redis.streams entry.1).xclaimIds c cfg.reaperMinIdleMs s.now ids).1,
      (entry.1, e.id) ≠ entry := by
    have hnone : ((s.redis.streams entry.1).xclaimIds c cfg.reaperMinIdleMs s.now ids).1.filter
        (fun e => decide (e.id = entry.2)) = [] := by
      rw [TaskStream.returned_xclaimIds, hstored, List.filterMap_none]
    rw [List.filter_eq_nil_iff] at hnone
    intro e he hentry
    exact hnone e he (decide_eq_true (Prod.mk.inj hentry).2)
  have hlines : ((s.redis.streams entry.1).xclaimIds c cfg.reaperMinIdleMs s.now ids).2.lines
      entry.2 = [] := by
    rw [TaskStream.lines_xclaimIds]
    rcases h.rest with hleft | ⟨-, hgone⟩
    · rw [hleft.line]
      simp [hmem, hleft.listed c ids todo claimed (by rw [hscan]) hmem, hstored]
    · rw [hgone.lines]
      rfl
  refine ⟨(claimsOf_claim todo claimed hreturned).trans h.claims, h.fresh, ?_, .inr ⟨rfl, ?_, ?_⟩⟩
  · intro c'
    by_cases hc : c' = c
    · subst hc
      have hheld := h.held c'
      rw [hscan] at hheld
      simp only [Scan.held, Scan.busyWith, Option.map_none, Option.toList_none, List.nil_append,
        ← List.count_eq_zero, Replicas.claim, Replicas.goOn, Function.update_self,
        count_held_sorting todo claimed hreturned] at hheld ⊢
      exact hheld
    · simpa [Replicas.claim, Replicas.goOn, hc] using h.held c'
  · simpa [Replicas.claim, Replicas.goOn, Redis.setStream] using hlines
  · simpa [Replicas.claim, Replicas.goOn, Redis.setStream, TaskStream.xclaimIds,
      TaskStream.stored?] using hstored

/-- **A claim**: an orphan that is waiting, and that the reaper asks for, is taken, if there is an
entry to take; one that has been taken is not taken again. -/
theorem Fate.claim {lane : Lane} {ids : List StreamId} {todo : List Lane}
    {claimed : List PageTask} (h : s.Fate cfg entry p stored) (hintime : s.inTime cfg = true)
    (hscan : s.scans c = ⟨none, .claiming lane ids todo claimed⟩) :
    (s.claim cfg c lane ids todo claimed).Fate cfg entry p stored := by
  rcases h with hwaiting | ⟨cl, htaken⟩
  · by_cases hids : lane = entry.1 ∧ entry.2 ∈ ids
    · obtain ⟨rfl, hmem⟩ := hids
      cases stored with
      | none => exact .inl (hwaiting.sweep hscan hmem)
      | some e => exact .inr ⟨_, hwaiting.claim hscan hmem⟩
    · refine Fate.passedOver (.inl hwaiting) hscan (fun _ => ?_) ?_
      · simp only [List.mem_map, not_exists, not_and]
        rintro id hid rfl
        exact hids ⟨rfl, hid⟩
      · intro hlane p' _
        have hnot : entry.2 ∉ ids := fun hmem => hids ⟨hlane, hmem⟩
        simp [hnot]
  · refine Fate.passedOver (.inr ⟨cl, htaken⟩) hscan (fun hclaims => ?_) ?_
    · exact absurd (htaken.claims.symm.trans hclaims) (by simp)
    · -- the clock was restarted by the claim, and the claim is still young
      rintro rfl p' hp'
      have hcl : cl ∈ s.claims ∧ cl.entry = entry := by
        have hmem : cl ∈ s.claimsOf entry := by simp [htaken.claims]
        simpa [Replicas.claimsOf] using hmem
      have hyoung := List.all_eq_true.mp hintime cl hcl.1
      have hpending : ((s.redis.streams entry.1).owner? entry.2).isNone = false := by
        rw [← Bool.not_eq_true, TaskStream.isNone_owner?]
        exact List.ne_nil_of_mem hp'
      simp only [Replicas.settled, hcl.2, hpending, Bool.false_and, Bool.false_or,
        decide_eq_true_eq] at hyoung
      simp only [Pending.idle, htaken.since p' hp', Bool.and_eq_false_iff, decide_eq_false_iff_not]
      omega

/-- A reaper moves on in its scan without beginning with an entry. -/
theorem Fate.rearrange {agenda agenda' : Agenda} (h : s.Fate cfg entry p stored)
    (hscan : s.scans c = ⟨none, agenda⟩)
    (hcount : agenda'.held.count entry = agenda.held.count entry)
    (hlisted : s.Untouched cfg entry p stored → ∀ ids todo claimed,
      agenda' = .claiming entry.1 ids todo claimed → entry.2 ∈ ids →
      p.idle cfg.reaperMinIdleMs s.now = true) :
    (s.goOn c ⟨none, agenda'⟩).Fate cfg entry p stored := by
  refine h.goOn c _ ?_ ?_ hlisted
  · rw [hscan]
    simp only [Scan.held, Scan.busyWith, Option.map_none, Option.toList_none, List.nil_append,
      ← List.count_eq_zero, hcount]
    exact fun h => h
  · rw [hscan]
    exact fun hhas => hhas.rearrange rfl rfl hcount

/-- A reaper begins with an entry. -/
theorem Fate.begin {agenda agenda' : Agenda} {e : Lane × StreamId} {prog : Py Unit}
    (h : s.Fate cfg entry p stored) (hscan : s.scans c = ⟨none, agenda⟩)
    (hperm : (e :: agenda'.held).Perm agenda.held)
    (hprog : prog.Follows (entryProtocol e) Cleared ⟨false, false, false⟩)
    (hlisted : ∀ ids todo claimed, agenda' ≠ .claiming entry.1 ids todo claimed) :
    (s.goOn c ⟨some (e, prog), agenda'⟩).Fate cfg entry p stored := by
  refine h.goOn c _ ?_ ?_
    (fun _ ids todo claimed hagenda => absurd hagenda (hlisted ids todo claimed))
  · rw [hscan]
    have hmem := hperm.mem_iff (a := entry)
    simp [Scan.held, Scan.busyWith, ← hmem]
  · rw [hscan]
    exact fun hhas => hhas.begin rfl rfl hperm hprog

/-- A listed entry was idle when it was listed. -/
theorem Untouched.idle_of_listed {lane : Lane} {batch : ℕ} (h : s.Untouched cfg entry p stored)
    (hlane : lane = entry.1)
    (hmem : entry.2 ∈ (s.redis.streams lane).orphanIds c cfg.reaperMinIdleMs batch s.now) :
    p.idle cfg.reaperMinIdleMs s.now = true := by
  subst hlane
  simp only [TaskStream.orphanIds, List.mem_map, List.mem_filter] at hmem
  obtain ⟨q, ⟨hq, -⟩, hid⟩ := hmem
  obtain ⟨hpel, hidle⟩ := TaskStream.mem_pel_of_mem_xpendingRange hq
  have hline : q ∈ (s.redis.streams entry.1).lines entry.2 := TaskStream.mem_lines.mpr ⟨hpel, hid⟩
  rw [h.line, List.mem_singleton] at hline
  rw [← hline]
  exact hidle

/-- **The reaper of a replica goes on**: whatever it does next, an orphan waits or has been taken
once. -/
theorem Fate.reap (h : s.Fate cfg entry p stored) (hseen : s.redis.Seen entry) (hworks : s.Works)
    (hintime : s.inTime cfg = true) {batch : ℕ} {o : Oracle} {s' : Replicas}
    (hreaps : Reaps cfg batch s c o s') : s'.Fate cfg entry p stored := by
  cases hreaps with
  | work hscan => exact h.work hseen.known hworks hscan
  | finish hscan =>
    refine h.goOn c _ ?_ ?_ ?_
    · rw [hscan]
      simp [Scan.held, Scan.busyWith]
    · rw [hscan]
      exact fun hhas => hhas.finish rfl
    · intro hleft ids todo claimed hagenda
      exact hleft.listed c ids todo claimed (by rw [hscan]; exact hagenda)
  | cut => exact h.abort c
  | turn hscan hperm hlisted =>
    refine h.rearrange hscan (hperm.count_eq entry) ?_
    intro hleft ids todo claimed hagenda hmem
    rw [hlisted _ _ _ _ hagenda] at hmem
    exact hleft.idle_of_listed rfl hmem
  | begin hscan hperm hprog hagenda => exact h.begin hscan hperm hprog (hagenda entry.1)
  | claim hscan => exact h.claim hintime hscan
  | claimLost hscan => exact (h.claim hintime hscan).abort c

theorem Works.goOn (h : s.Works) (hscan : ∀ e prog, scan.current = some (e, prog) →
    ∃ φ, prog.Follows (entryProtocol e) Cleared φ) (c : Consumer) : (s.goOn c scan).Works := by
  intro c' e prog
  by_cases hc : c' = c
  · subst hc
    simpa [Replicas.goOn] using hscan e prog
  · simpa [Replicas.goOn, hc] using h c' e prog

theorem Works.clear (h : s.Works) (c : Consumer) (agenda : Agenda) :
    (s.goOn c ⟨none, agenda⟩).Works := by
  refine h.goOn ?_ c
  intro e prog hcurrent
  cases hcurrent

theorem Works.abort (h : s.Works) (c : Consumer) : (s.abort c).Works := h.clear c .idle

/-- A reaper keeps to the protocol. -/
theorem Works.reap (h : s.Works) {batch : ℕ} {o : Oracle} {s' : Replicas}
    (hreaps : Reaps cfg batch s c o s') : s'.Works := by
  have hclaim : ∀ lane ids todo claimed, (s.claim cfg c lane ids todo claimed).Works :=
    fun lane ids todo claimed => Works.clear (s := { s with
      redis := _, claims := _, asked := _ }) h c _
  cases hreaps with
  | @work e cmd k agenda hscan =>
    obtain ⟨φ, hfollows⟩ := h c e _ (by rw [hscan])
    refine Works.goOn (s := { s with redis := _, fresh := _ }) h ?_ c
    intro e' prog hcurrent
    obtain ⟨rfl, rfl⟩ := Prod.mk.inj (Option.some.inj hcurrent)
    obtain ⟨φ', -, hrest⟩ := hfollows (cmd.exec cfg { o with now := s.now } s.redis).1 trivial
    exact ⟨φ', hrest⟩
  | finish => exact h.clear c _
  | cut => exact h.abort c
  | turn => exact h.clear c _
  | begin hscan hperm hprog =>
    refine h.goOn ?_ c
    intro e' prog hcurrent
    obtain ⟨rfl, rfl⟩ := Prod.mk.inj (Option.some.inj hcurrent)
    exact ⟨_, hprog⟩
  | claim => exact hclaim _ _ _ _
  | claimLost => exact (hclaim _ _ _ _).abort c

/-- A reaper unassigns no id. -/
theorem seen_reap (h : s.redis.Seen entry) {batch : ℕ} {o : Oracle} {s' : Replicas}
    (hreaps : Reaps cfg batch s c o s') : s'.redis.Seen entry := by
  have hclaim : ∀ lane ids todo claimed,
      (s.claim cfg c lane ids todo claimed).redis.Seen entry := by
    intro lane ids todo claimed
    by_cases hlane : entry.1 = lane
    · subst hlane
      constructor <;> simp [Replicas.claim, Replicas.goOn, Redis.setStream, TaskStream.xclaimIds,
        h.delivered, h.known]
    · constructor <;> simp [Replicas.claim, Replicas.goOn, Redis.setStream, hlane, h.delivered,
        h.known]
  cases hreaps with
  | work => exact h.exec cfg _ _
  | @claim lane ids todo claimed => exact hclaim lane ids todo claimed
  | @claimLost lane ids todo claimed => exact hclaim lane ids todo claimed
  | _ => exact h

end Steps

/-! ## Every run -/

/-- What a dead consumer has left behind: a line of the Pending Entries List, the only one for its
id, which the stream has assigned and the group has delivered.  The entry itself may be gone. -/
structure Orphaned (redis : Redis) (entry : Lane × StreamId) : Prop where
  seen : redis.Seen entry
  line : ∃ p, (redis.streams entry.1).lines entry.2 = [p]

/-- In a stream whose ids are in order, every pending entry can be an orphan. -/
theorem Orphaned.of_sound {redis : Redis} {entry : Lane × StreamId}
    (hsound : (redis.streams entry.1).Sound) (hnodup : (redis.streams entry.1).pending.Nodup)
    (hpending : entry.2 ∈ (redis.streams entry.1).pending) : Orphaned redis entry := by
  have hdelivered := hsound.pending _ hpending
  refine ⟨⟨hdelivered, StreamId.not_before_trans hsound.delivered hdelivered⟩, ?_⟩
  obtain ⟨p, hp, hid⟩ := List.mem_map.mp hpending
  refine ⟨p, ?_⟩
  have hcount : ((redis.streams entry.1).lines entry.2).length ≤ 1 := by
    have hone := List.nodup_iff_count_le_one.mp hnodup entry.2
    rw [TaskStream.pending, List.count, List.countP_map, List.countP_eq_length_filter] at hone
    exact hone
  have hmem : p ∈ (redis.streams entry.1).lines entry.2 := TaskStream.mem_lines.mpr ⟨hp, hid⟩
  obtain ⟨q, hq⟩ := List.length_eq_one_iff.mp
    (le_antisymm hcount (List.length_pos_of_mem hmem))
  rw [hq, List.mem_singleton] at hmem
  rw [hq, hmem]

/-- **In every state that a fleet reaches**, whatever raises and whoever dies, every pending entry
can be an orphan. -/
theorem orphaned_of_reach {cfg : Settings} {s : Patrol} {entry : Lane × StreamId}
    (hreach : (Patrol.system cfg).Reach System.anyStep s)
    (hpending : entry.2 ∈ (s.fleet.redis.streams entry.1).pending) :
    Orphaned s.fleet.redis entry := by
  have hsound : ∀ lane, (s.fleet.redis.streams lane).Sound := by
    clear hpending
    induction hreach with
    | init => exact fun _ => TaskStream.Sound.empty
    | step _ _ hstep ih =>
      obtain ⟨f, hf, rfl⟩ := Option.map_eq_some_iff.mp hstep
      exact (step_spec hf).sound ih
  exact .of_sound (hsound _) ((Patrol.inOrder_of_reach hreach).listed _).nodup hpending

/-- What holds of an orphan in every state reached. -/
structure Tracked (cfg : Settings) (entry : Lane × StreamId) (p : Pending) (stored : Option Entry)
    (s : Replicas) : Prop where
  works : s.Works
  seen : s.redis.Seen entry
  fate : s.Fate cfg entry p stored
  inTime : s.inTime cfg = true

section Runs
variable {cfg : Settings} {batch : ℕ} {orphans : Lane × StreamId → Bool} {redis : Redis} {now : ℕ}
  {s s' : Replicas} {entry : Lane × StreamId} {p : Pending} {stored : Option Entry} {l : Label}

theorem tracked_start (h : Orphaned redis entry)
    (hline : (redis.streams entry.1).lines entry.2 = [p]) :
    Tracked cfg entry p ((redis.streams entry.1).stored? entry.2) (start redis now) where
  works := fun _ _ _ hcurrent => nomatch hcurrent
  seen := h.seen
  fate := .inl ⟨rfl, List.not_mem_nil, fun _ => List.not_mem_nil, .inl ⟨List.not_mem_nil, hline,
    rfl, fun _ _ _ _ hagenda => nomatch hagenda⟩⟩
  inTime := rfl

/-- **One step** keeps track of every orphan. -/
theorem Tracked.step (h : Tracked cfg entry p stored s) (ho : orphans entry = true)
    (hallow : punctual cfg batch orphans s l = true)
    (hstep : s.step cfg batch orphans l = some s') : Tracked cfg entry p stored s' := by
  have hintime : s'.inTime cfg = true := by
    simpa [punctual, hstep] using hallow
  have hspare : ∀ (r : Redis) (t : ℕ), s.redis.Spares entry r → s.now ≤ t →
      s' = { s with redis := r, now := t } → Tracked cfg entry p stored s' := by
    rintro r t hspares hle rfl
    exact ⟨h.works, hspares.seen h.seen, h.fate.frame hspares hle rfl (List.Subset.refl _), hintime⟩
  cases l with
  | tick ms =>
    obtain rfl := Option.some.inj hstep
    exact hspare s.redis _ (.refl _ _) (Nat.le_add_right _ _) rfl
  | command c o =>
    simp only [Replicas.step] at hstep
    split at hstep
    · cases hstep
    · rename_i hother
      obtain rfl := Option.some.inj hstep
      refine hspare _ s.now (Redis.spares_exec cfg _ h.seen.known ?_) le_rfl rfl
      intro hsettled
      simp [hsettled, ho] at hother
  | enqueue lane fields =>
    obtain rfl := Option.some.inj hstep
    refine hspare _ s.now (Redis.spares_setStream fun hlane => ?_) le_rfl rfl
    subst hlane
    exact TaskStream.spares_xadd h.seen.known _ _
  | deliver c lane =>
    obtain ⟨⟨e, stream⟩, hread, hsome⟩ := Option.bind_eq_some_iff.mp hstep
    obtain rfl := Option.some.inj hsome
    refine hspare _ s.now (Redis.spares_setStream fun hlane => ?_) le_rfl rfl
    subst hlane
    exact TaskStream.spares_deliver h.seen.delivered hread
  | renew c lane id =>
    simp only [Replicas.step] at hstep
    split at hstep
    · cases hstep
    · rename_i hother
      obtain ⟨⟨e, stream⟩, hclaim, hsome⟩ := Option.bind_eq_some_iff.mp hstep
      obtain rfl := Option.some.inj hsome
      refine hspare _ s.now (Redis.spares_setStream fun hlane => ?_) le_rfl rfl
      subst hlane
      refine TaskStream.spares_xclaim ?_ hclaim
      rintro rfl
      exact hother ho
  | expire key =>
    obtain rfl := Option.some.inj hstep
    exact hspare { s.redis with pages := Function.update s.redis.pages key none } s.now
      (TaskStream.Spares.refl _ _) le_rfl rfl
  | reap c o =>
    obtain rfl := Option.some.inj hstep
    have hreaps := reaps_reap cfg batch s c o
    exact ⟨h.works.reap hreaps, seen_reap h.seen hreaps,
      h.fate.reap h.seen h.works h.inTime hreaps, hintime⟩
  | stop c =>
    obtain rfl := Option.some.inj hstep
    exact ⟨h.works.abort c, h.seen, h.fate.abort c, hintime⟩

/-- An entry that is gone is settled. -/
theorem settled_of_gone (h : s.redis.Gone entry) : s.settled entry = true := by
  rw [settled, TaskStream.isNone_owner?.mpr h.lines, h.stored]
  rfl

theorem Tracked.recoveredOnce
    (h : Tracked cfg entry p ((redis.streams entry.1).stored? entry.2) s)
    (hline : (redis.streams entry.1).lines entry.2 = [p]) : RecoveredOnce cfg redis s entry := by
  rcases h.fate with hwaiting | ⟨cl, htaken⟩
  · refine ⟨?_, ?_, ?_, ?_, ?_, ?_⟩
    · simp [hwaiting.claims]
    · simp [List.count_eq_zero.mpr hwaiting.fresh]
    · refine fun _ => ⟨hwaiting.fresh, hwaiting.rest.imp (fun hleft => ?_) ?_⟩
      · rw [TaskStream.owner?_eq_head?, TaskStream.owner?_eq_head?, hleft.line, hline]
        exact ⟨rfl, hleft.stored⟩
      · exact And.imp_right settled_of_gone
    · intro hasked
      rcases hwaiting.rest with hleft | ⟨-, hgone⟩
      · exact absurd hasked hleft.asked
      · exact .inr (settled_of_gone hgone)
    · simp [hwaiting.claims]
    · simp [hwaiting.claims]
  · have hmem : cl ∈ s.claims ∧ cl.entry = entry := by
      have hmem : cl ∈ s.claimsOf entry := by simp [htaken.claims]
      simpa [claimsOf] using hmem
    refine ⟨?_, htaken.has.count_fresh_le, ?_, ?_, ?_, ?_⟩
    · simp [htaken.claims]
    · simp [htaken.claims]
    · simp [htaken.claims]
    · intro cl' hcl' hheld hdropped
      rw [htaken.claims, List.mem_singleton] at hcl'
      subst hcl'
      cases htaken.has with
      | queued hcount =>
        refine absurd (List.mem_append_right _ ?_) hheld
        exact List.count_pos_iff.mp (by omega)
      | current hcurrent => simp [Scan.held, Scan.busyWith, hcurrent] at hheld
      | finished _ _ hend =>
        rcases hend with hlost | hgone
        · exact absurd hlost hdropped
        · exact settled_of_gone hgone
    · intro cl' hcl' hlate
      rw [htaken.claims, List.mem_singleton] at hcl'
      subst hcl'
      have hyoung := List.all_eq_true.mp h.inTime cl' hmem.1
      rw [hmem.2, decide_eq_false (Nat.not_lt.mpr hlate), Bool.or_false] at hyoung
      exact hyoung

/-- **Reapers on every replica recover an orphan once**, whatever the order of their steps, if
each of them settles what it claims before it has been idle for too long again. -/
theorem recovered_once (horphans : ∀ entry, orphans entry = true → Orphaned redis entry)
    (hreach : (system cfg batch orphans redis now).Reach (punctual cfg batch orphans) s)
    (ho : orphans entry = true) : RecoveredOnce cfg redis s entry := by
  obtain ⟨p, hline⟩ := (horphans entry ho).line
  have htracked : Tracked cfg entry p ((redis.streams entry.1).stored? entry.2) s := by
    refine hreach.invariant (tracked_start (horphans entry ho) hline) ?_
    intro s l s' h hallow hstep
    exact h.step ho hallow hstep
  exact htracked.recoveredOnce hline

end Runs

/-- The entry of a page that a worker left behind between its two stages. -/
def leftEntry : Lane × StreamId := (.main, ⟨1000, 0⟩)

def leftBehind : Redis where
  jobs := fun _ => none
  pages := fun key => if key = ⟨0, 1⟩ then some .betweenStages else none
  streams := fun lane => match lane with
    | .lead => TaskStream.empty
    | .main => ⟨[⟨leftEntry.2, enqueueFields ⟨0, 1⟩ 1000 "t"⟩], [⟨leftEntry.2, 9, 1000⟩],
        leftEntry.2, leftEntry.2⟩
  results := fun _ => ResultStream.empty

theorem orphaned_leftBehind : Orphaned leftBehind leftEntry :=
  ⟨⟨by decide, by decide⟩, ⟨_, rfl⟩⟩

/-- Two reapers list the entry before either claims it; the first one gets it and puts the page
back, the second one comes away with nothing. -/
def twoReapers : List Label :=
  let go (c : Consumer) : Label := .reap c (.answer 0)
  [go 1, go 2, go 1, go 2, go 1, go 2, go 1, go 2, .tick 100] ++ List.replicate 13 (go 1) ++
    List.replicate 3 (go 2)

theorem recovered_once_two_reapers :
    ∃ s, (system {} 16 (fun e => decide (e = leftEntry)) leftBehind 40000).Reach
        (punctual {} 16 fun e => decide (e = leftEntry)) s ∧
      s.asked.count leftEntry = 2 ∧ s.fresh.count leftEntry = 1 ∧
      RecoveredOnce {} leftBehind s leftEntry := by
  obtain ⟨s, hreach, hs⟩ := (system {} 16 (fun e => decide (e = leftEntry)) leftBehind
    40000).exists_of_runAll (punctual {} 16 fun e => decide (e = leftEntry))
    (fun s => decide (s.asked.count leftEntry = 2 ∧ s.fresh.count leftEntry = 1)) twoReapers
    (by decide +kernel)
  obtain ⟨hasked, hfresh⟩ := of_decide_eq_true hs
  refine ⟨s, hreach, hasked, hfresh, recovered_once ?_ hreach (by decide)⟩
  intro entry hentry
  rw [of_decide_eq_true hentry]
  exact orphaned_leftBehind

end Replicas

end OcrOrchestrator

import Rcpu.HeadersSyncRuns

/-!
# An honest peer's headers get through

A peer that serves one chain of permitted steps and enough work, in messages of any sizes, is never
given up: the first download ends when the work is reached, the second one passes every comparison
with it, and ends with the message in which the work is reached again.
-/

namespace Rcpu.HeadersSync

open Rcpu.Pow Difficulty HashChain

/-- The batches are sent as full messages until the sync is in the given state. -/
def feedUntil (sync : Sync) (stop : State) :
    HeadersSyncState → List (List CBlockHeader) → HeadersSyncState × List ProcessingResult
  | s, [] => (s, [])
  | s, batch :: batches =>
    if s.m_download_state = stop then (s, [])
    else
      let (s₁, r) := processNextHeaders sync s batch true
      let (s₂, rs) := feedUntil sync stop s₁ batches
      (s₂, r :: rs)

structure Honest (sync : Sync) (chain : List CBlockHeader) : Prop where
  linked : sync.Linked chain
  permitted : sync.Permitted chain
  commitments_le : (sync.commitments chain).length ≤ sync.m_max_commitments
  work_lt : sync.totalWork chain < 2 ^ 256
  enough : sync.m_minimum_required_work ≤ sync.totalWork chain

section Honest

variable {sync : Sync} {chain : List CBlockHeader} {s : HeadersSyncState} {x : CBlockHeader}
  {sent batch presync released buffered : List CBlockHeader}

theorem totalWork_mono (sync : Sync) {l l' : List CBlockHeader} (h : l <+: l') :
    sync.totalWork l ≤ sync.totalWork l' := by
  obtain ⟨t, rfl⟩ := h
  exact totalWork_le_append l t

theorem Honest.linked_initial (h : Honest sync chain) (hsent : sent <+: chain) :
    sync.Linked sent := by
  obtain ⟨t, rfl⟩ := hsent
  exact h.linked.of_append

theorem Honest.permitted_initial (h : Honest sync chain) (hsent : sent <+: chain) :
    sync.Permitted sent := by
  obtain ⟨t, rfl⟩ := hsent
  exact h.permitted.of_append

theorem Presyncing.last_hash (h : Presyncing sync s presync) :
    sync.hash s.m_last_header_received = tip sync.hash sync.m_chain_start.blockHash presync := by
  rw [h.last, map_tip sync.hash, sync.m_chain_start.blockHash_eq]
  rfl

theorem Presyncing.last_nBits (h : Presyncing sync s presync) :
    s.m_last_header_received.nBits =
      tip CBlockHeader.nBits sync.m_chain_start.header.nBits presync := by
  rw [h.last, map_tip CBlockHeader.nBits]
  rfl

theorem Presyncing.exists_step (hchain : Honest sync chain) (h : Presyncing sync s sent)
    (hx : sent ++ [x] <+: chain) :
    ∃ s', validateAndProcessSingleHeader sync s x = (s', true) ∧ Presyncing sync s' (sent ++ [x]) := by
  have hpermitted := (permitted_concat.mp (hchain.permitted_initial hx)).2
  rw [← h.height, ← h.last_nBits] at hpermitted
  have hroom : sync.IsCommitmentHeight (s.m_current_height + 1) →
      s.m_header_commitments.length < sync.m_max_commitments := by
    intro hheight
    obtain ⟨t, ht⟩ := hx
    have hle : (sync.commitments (sent ++ [x])).length ≤ (sync.commitments (sent ++ [x] ++ t)).length :=
      sampled_length_le _ _
    rw [ht] at hle
    have hconcat := congrArg List.length (@commitments_concat sync sent x)
    rw [← h.height, if_pos hheight, List.length_append, ← h.commitments, List.length_singleton]
      at hconcat
    have hmax := hchain.commitments_le
    omega
  have hstep := validateAndProcessSingleHeader_eq_true.mpr ⟨h.state, hpermitted, hroom, rfl⟩
  exact ⟨_, hstep, h.step hstep⟩

theorem Redownloading.previousNBits_eq (h : Redownloading sync s presync sent released buffered) :
    previousNBits sync s = tip CBlockHeader.nBits sync.m_chain_start.header.nBits sent := by
  unfold previousNBits
  rw [h.buffer]
  rcases List.eq_nil_or_concat buffered with rfl | ⟨init, last, rfl⟩
  · have hsent : sent = [] := by_contra fun hne => h.busy hne rfl
    rw [hsent]
    rfl
  · rw [h.split, List.concat_eq_append, ← List.append_assoc, tip_concat]
    simp [CompressedHeader.ofHeader]

/-- Below the work the second download is still inside the first one. -/
theorem Redownloading.next_commitment (hchain : Honest sync chain) (hpresync : presync <+: chain)
    (henough : sync.m_minimum_required_work ≤ sync.totalWork presync)
    (h : Redownloading sync s presync sent released buffered) (hx : sent ++ [x] <+: chain)
    (hundecided : (countHeader sync s x).m_process_all_remaining_headers = false)
    (hheight : sync.IsCommitmentHeight (s.m_redownload_buffer_last_height + 1)) :
    ∃ rest, s.m_header_commitments = [sync.commitment x] ++ rest := by
  obtain ⟨hbefore, hnow⟩ := Bool.or_eq_false_iff.mp hundecided
  have hsmall := (totalWork_mono sync hx).trans_lt hchain.work_lt
  have hlow : sync.totalWork (sent ++ [x]) < sync.m_minimum_required_work := by
    have hnow := of_decide_eq_false hnow
    rw [(h.work.concat x).2 hsmall] at hnow
    omega
  have hinside : sent ++ [x] <+: presync := by
    rcases List.prefix_or_prefix_of_prefix hx hpresync with hinside | hbeyond
    · exact hinside
    · have hle := totalWork_mono sync hbeyond
      omega
  obtain ⟨t, ht⟩ := hinside
  have hcommitments := h.commitments hbefore
  rw [← ht, show sync.commitments (sent ++ [x] ++ t) = _ from sampled_append] at hcommitments
  have hconcat : sync.commitments (sent ++ [x]) = sync.commitments sent ++ [sync.commitment x] := by
    rw [commitments_concat, ← h.height, if_pos hheight]
  rw [show sampled sync.IsCommitmentHeight sync.commitment sync.m_chain_start.nHeight (sent ++ [x]) =
    _ from hconcat, List.append_assoc] at hcommitments
  exact ⟨_, (List.append_cancel_left hcommitments).symm⟩

theorem Redownloading.exists_step (hchain : Honest sync chain) (hpresync : presync <+: chain)
    (henough : sync.m_minimum_required_work ≤ sync.totalWork presync)
    (h : Redownloading sync s presync sent released buffered) (hx : sent ++ [x] <+: chain) :
    ∃ s', validateAndStoreRedownloadedHeader sync s x = (s', true) ∧
      Redownloading sync s' presync (sent ++ [x]) released (buffered ++ [x]) := by
  have hlink := (linked_concat.mp (hchain.linked_initial hx)).2
  rw [← h.lastHash] at hlink
  have hpermitted := (permitted_concat.mp (hchain.permitted_initial hx)).2
  rw [← h.height, ← h.previousNBits_eq] at hpermitted
  obtain ⟨rest, hrest⟩ : ∃ rest, s.m_header_commitments =
      (if (countHeader sync s x).m_process_all_remaining_headers = false ∧
        sync.IsCommitmentHeight (s.m_redownload_buffer_last_height + 1)
      then [sync.commitment x] else []) ++ rest := by
    split_ifs with hchecked
    · exact h.next_commitment hchain hpresync henough hx hchecked.1 hchecked.2
    · exact ⟨_, rfl⟩
  have hstep := validateAndStoreRedownloadedHeader_eq_true.mpr
    ⟨h.state, hlink, hpermitted, rest, hrest, rfl⟩
  exact ⟨_, hstep, h.step hstep⟩

theorem initial_of_append {l l' : List CBlockHeader} (h : l ++ l' <+: chain) : l <+: chain :=
  (List.prefix_append l l').trans h

theorem Presyncing.exists_batch (hchain : Honest sync chain) (h : Presyncing sync s sent)
    (hne : batch ≠ []) (hbatch : sent ++ batch <+: chain) :
    ∃ s' r, processNextHeaders sync s batch true = (s', r) ∧ r.success = true ∧
      r.pow_validated_headers = [] ∧
      if sync.m_minimum_required_work ≤ sync.totalWork (sent ++ batch) then
        Redownloading sync s' (sent ++ batch) [] [] []
      else Presyncing sync s' (sent ++ batch) := by
  obtain ⟨first, rest, rfl⟩ := List.exists_cons_of_ne_nil hne
  obtain ⟨s', hfeed, hs'⟩ := exists_feed (Q := fun l => l <+: chain) (fun _ _ => initial_of_append)
    (fun _ _ _ => Presyncing.exists_step hchain) h hbatch
  have hconnects : first.hashPrevBlock = sync.hash s.m_last_header_received := by
    have hlinked := (chained_append.mp (hchain.linked_initial hbatch)).2
    rw [h.last_hash]
    exact hlinked.1
  have hwork : s'.m_current_chain_work = sync.totalWork (sent ++ first :: rest) :=
    hs'.work.2 ((totalWork_mono sync hbatch).trans_lt hchain.work_lt)
  have hrespond := @respond_of_presync sync s ⟨first :: rest, true⟩ hne h.state
  rcases @processPresync_cases sync s ⟨first :: rest, true⟩ first rest rfl h.state with
    ⟨hapart, -⟩ | ⟨-, s₁, ok, hfeed₁, hresult⟩
  · exact absurd hconnects hapart
  · rw [hfeed, Prod.mk.injEq] at hfeed₁
    obtain ⟨rfl, rfl⟩ := hfeed₁
    rw [hresult, if_pos rfl, hwork] at hrespond
    split_ifs at hrespond ⊢ with hmin
    · exact ⟨_, _, hrespond.trans (settleCall_eq rfl rfl), rfl, rfl, redownloading_start hs'⟩
    · exact ⟨_, _, hrespond.trans (settleCall_eq rfl rfl), rfl, rfl, hs'⟩

theorem Redownloading.exists_batch (hchain : Honest sync chain) (hpresync : presync <+: chain)
    (henough : sync.m_minimum_required_work ≤ sync.totalWork presync)
    (h : Redownloading sync s presync sent released buffered) (hne : batch ≠ [])
    (hbatch : sent ++ batch <+: chain) :
    ∃ s' r, processNextHeaders sync s batch true = (s', r) ∧ r.success = true ∧
      if sync.m_minimum_required_work ≤ sync.totalWork (sent ++ batch) then
        s'.m_download_state = .FINAL ∧ released ++ r.pow_validated_headers = sent ++ batch
      else ∃ left, Redownloading sync s' presync (sent ++ batch)
        (released ++ r.pow_validated_headers) left := by
  obtain ⟨s₁, hfeed, buffered₁, hs₁⟩ := exists_feed (Q := fun l => l <+: chain)
    (P := fun s l => ∃ buffered, Redownloading sync s presync l released buffered)
    (fun _ _ => initial_of_append)
    (fun s l x ⟨_, h⟩ hx => by
      obtain ⟨s', hs', h'⟩ := h.exists_step hchain hpresync henough hx
      exact ⟨s', hs', _, h'⟩) ⟨buffered, h⟩ hbatch
  obtain ⟨s₂, ret, left, hpop, hflag, hbuffer, hsplit, -, hdone, hgoes⟩ := hs₁.pop
  have hrespond := @respond_of_redownload sync s ⟨batch, true⟩ hne h.state
  have hresult := @processRedownload_eq sync s s₁ batch true hfeed
  rw [hpop] at hresult
  dsimp only at hrespond
  generalize processRedownload sync s batch true = result at hrespond hresult
  have hsmall := (totalWork_mono sync hbatch).trans_lt hchain.work_lt
  refine ⟨(settleCall result).1, result.2, hrespond, by rw [hresult], ?_⟩
  by_cases hmin : sync.m_minimum_required_work ≤ sync.totalWork (sent ++ batch)
  · have hall := hs₁.reached_of (List.append_ne_nil_of_right_ne_nil sent hne) hsmall hmin
    have hleft := hdone hall
    rw [if_pos hmin, hresult]
    refine ⟨final_settleCall ?_, ?_⟩
    · rw [hbuffer, hleft, hflag, hall]
      simp
    · rw [hs₁.split, hsplit, hleft, List.append_nil]
  · have hundecided : s₁.m_process_all_remaining_headers = false :=
      Bool.eq_false_iff.mpr fun hall => hmin (hs₁.reached hall)
    rw [if_neg hmin, hresult, settleCall_eq rfl (by rw [hflag, hundecided, Bool.and_false]; rfl)]
    exact ⟨left, hgoes hundecided⟩

theorem feedUntil_of_stop {stop : State} (h : s.m_download_state = stop)
    (batches : List (List CBlockHeader)) : feedUntil sync stop s batches = (s, []) := by
  cases batches with
  | nil => rfl
  | cons batch batches => rw [feedUntil, if_pos h]

theorem feedUntil_cons {stop : State} {batches : List (List CBlockHeader)} {s₁ : HeadersSyncState}
    {r : ProcessingResult} (h : s.m_download_state ≠ stop)
    (hbatch : processNextHeaders sync s batch true = (s₁, r)) :
    feedUntil sync stop s (batch :: batches) =
      ((feedUntil sync stop s₁ batches).1, r :: (feedUntil sync stop s₁ batches).2) := by
  rw [feedUntil, if_neg h, hbatch]

/-- The first download succeeds and ends as soon as the work is reached. -/
theorem Presyncing.exists_phase (hchain : Honest sync chain) (h : Presyncing sync s sent)
    {batches : List (List CBlockHeader)} (hne : ∀ batch ∈ batches, batch ≠ [])
    (hbatches : sent ++ batches.flatten = chain)
    (hlow : batches = [] → sync.totalWork sent < sync.m_minimum_required_work) :
    ∃ s' rs presync, feedUntil sync .REDOWNLOAD s batches = (s', rs) ∧
      (∀ r ∈ rs, r.success = true ∧ r.pow_validated_headers = []) ∧ presync <+: chain ∧
      sync.m_minimum_required_work ≤ sync.totalWork presync ∧
      Redownloading sync s' presync [] [] [] := by
  induction batches generalizing s sent with
  | nil =>
    rw [List.flatten_nil, List.append_nil] at hbatches
    have hless := hlow rfl
    rw [hbatches] at hless
    exact absurd hchain.enough (Nat.not_le.mpr hless)
  | cons batch batches ih =>
    rw [List.flatten_cons, ← List.append_assoc] at hbatches
    have hbatch : sent ++ batch <+: chain := ⟨_, hbatches⟩
    obtain ⟨s₁, r, hr, hsuccess, hnone, hs₁⟩ := h.exists_batch hchain
      (hne batch List.mem_cons_self) hbatch
    rw [feedUntil_cons (by rw [h.state]; decide) hr]
    split_ifs at hs₁ with hmin
    · rw [feedUntil_of_stop hs₁.state]
      exact ⟨s₁, [r], sent ++ batch, rfl, by simpa using ⟨hsuccess, hnone⟩, hbatch, hmin, hs₁⟩
    · obtain ⟨s', rs, presync, hrs, hall, hrest⟩ := ih hs₁
        (fun batch hmem => hne batch (List.mem_cons_of_mem _ hmem)) hbatches fun _ => by omega
      rw [hrs]
      exact ⟨s', r :: rs, presync, rfl, by simpa using ⟨⟨hsuccess, hnone⟩, hall⟩, hrest⟩

/-- The second download succeeds and releases everything up to the message that reaches the work. -/
theorem Redownloading.exists_phase (hchain : Honest sync chain) (hpresync : presync <+: chain)
    (henough : sync.m_minimum_required_work ≤ sync.totalWork presync)
    (h : Redownloading sync s presync sent released buffered)
    {batches : List (List CBlockHeader)} (hne : ∀ batch ∈ batches, batch ≠ [])
    (hbatches : sent ++ batches.flatten = chain)
    (hlow : batches = [] → sync.totalWork sent < sync.m_minimum_required_work) :
    ∃ s' rs before batch after, feedUntil sync .FINAL s batches = (s', rs) ∧
      (∀ r ∈ rs, r.success = true) ∧ s'.m_download_state = .FINAL ∧
      batches = before ++ batch :: after ∧
      (before = [] ∨ sync.totalWork (sent ++ before.flatten) < sync.m_minimum_required_work) ∧
      sync.m_minimum_required_work ≤ sync.totalWork (sent ++ before.flatten ++ batch) ∧
      released ++ releasedBy rs = sent ++ before.flatten ++ batch := by
  induction batches generalizing s sent released buffered with
  | nil =>
    rw [List.flatten_nil, List.append_nil] at hbatches
    have hless := hlow rfl
    rw [hbatches] at hless
    exact absurd hchain.enough (Nat.not_le.mpr hless)
  | cons batch batches ih =>
    rw [List.flatten_cons, ← List.append_assoc] at hbatches
    obtain ⟨s₁, r, hr, hsuccess, hs₁⟩ := h.exists_batch hchain hpresync henough
      (hne batch List.mem_cons_self) ⟨_, hbatches⟩
    rw [feedUntil_cons (by rw [h.state]; decide) hr]
    split_ifs at hs₁ with hmin
    · obtain ⟨hfinal, hreleased⟩ := hs₁
      rw [feedUntil_of_stop hfinal]
      refine ⟨s₁, [r], [], batch, batches, rfl, by simpa using hsuccess, hfinal, rfl, .inl rfl, ?_, ?_⟩
      · simpa using hmin
      · simpa [releasedBy] using hreleased
    · obtain ⟨left, hs₁⟩ := hs₁
      obtain ⟨s', rs, before, last, after, hrs, hall, hfinal, hsplit, hbelow, hreach, hreleased⟩ :=
        ih hs₁ (fun batch hmem => hne batch (List.mem_cons_of_mem _ hmem)) hbatches fun _ => by omega
      rw [hrs]
      refine ⟨s', r :: rs, batch :: before, last, after, rfl, by simpa using ⟨hsuccess, hall⟩, hfinal,
        by rw [hsplit, List.cons_append], ?_, ?_, ?_⟩
      · right
        rw [List.flatten_cons, ← List.append_assoc]
        rcases hbelow with rfl | hbelow
        · rw [List.flatten_nil, List.append_nil]
          omega
        · exact hbelow
      · rwa [List.flatten_cons, ← List.append_assoc]
      · rw [List.flatten_cons, ← List.append_assoc sent, ← hreleased, List.append_assoc]
        rfl

end Honest

theorem releasedBy_append (rs rs' : List ProcessingResult) :
    releasedBy (rs ++ rs') = releasedBy rs ++ releasedBy rs' := by
  rw [releasedBy, List.map_append, List.flatten_append, releasedBy, releasedBy]

theorem releasedBy_eq_nil {rs : List ProcessingResult} (h : ∀ r ∈ rs, r.pow_validated_headers = []) :
    releasedBy rs = [] := by
  refine List.flatten_eq_nil_iff.mpr ?_
  intro headers hheaders
  obtain ⟨r, hr, rfl⟩ := List.mem_map.mp hheaders
  exact h r hr

/-- **An honest peer's sync never aborts**: however a chain of permitted steps with enough work is
cut into batches, every call succeeds and the chain is released up to the batch that reaches the
work again. -/
theorem honest_sync_completes (sync : Sync) (chain : List CBlockHeader) (hne : chain ≠ [])
    (hlinked : sync.Linked chain) (hpermitted : sync.Permitted chain)
    (hcommitments : (sync.commitments chain).length ≤ sync.m_max_commitments)
    (hsmall : sync.totalWork chain < 2 ^ 256)
    (henough : sync.m_minimum_required_work ≤ sync.totalWork chain)
    (first second : List (List CBlockHeader)) (hfirst : first.flatten = chain)
    (hsecond : second.flatten = chain) (hfirst_ne : ∀ batch ∈ first, batch ≠ [])
    (hsecond_ne : ∀ batch ∈ second, batch ≠ []) :
    ∃ s₁ rs₁ s₂ rs₂, feedUntil sync .REDOWNLOAD sync.new first = (s₁, rs₁) ∧
      feedUntil sync .FINAL s₁ second = (s₂, rs₂) ∧ s₁.m_download_state = .REDOWNLOAD ∧
      (∀ r ∈ rs₁ ++ rs₂, r.success = true) ∧ s₂.m_download_state = .FINAL ∧
      ∃ before batch after, second = before ++ batch :: after ∧
        (before = [] ∨ sync.totalWork before.flatten < sync.m_minimum_required_work) ∧
        sync.m_minimum_required_work ≤ sync.totalWork (before.flatten ++ batch) ∧
        releasedBy (rs₁ ++ rs₂) = before.flatten ++ batch := by
  have hchain : Honest sync chain := ⟨hlinked, hpermitted, hcommitments, hsmall, henough⟩
  have hsent : ∀ batches : List (List CBlockHeader), batches.flatten = chain → batches ≠ [] := by
    rintro batches hbatches rfl
    exact hne hbatches.symm
  obtain ⟨s₁, rs₁, presync, hphase₁, hall₁, hpresync, hreached, hs₁⟩ :=
    (presyncing_new sync).exists_phase hchain hfirst_ne hfirst fun hnil => absurd hnil (hsent _ hfirst)
  obtain ⟨s₂, rs₂, before, batch, after, hphase₂, hall₂, hfinal, hsplit, hbelow, hreach, hreleased⟩ :=
    hs₁.exists_phase hchain hpresync hreached hsecond_ne hsecond
      fun hnil => absurd hnil (hsent _ hsecond)
  refine ⟨s₁, rs₁, s₂, rs₂, hphase₁, hphase₂, hs₁.state, ?_, hfinal, before, batch, after, hsplit,
    hbelow, hreach, ?_⟩
  · intro r hr
    rcases List.mem_append.mp hr with hr | hr
    · exact (hall₁ r hr).1
    · exact hall₂ r hr
  · rw [releasedBy_append, releasedBy_eq_nil fun r hr => (hall₁ r hr).2]
    exact hreleased

/-- Three headers, of which two suffice, in one message and then in two. -/
theorem honest_sync_completes_sampleSync :
    ∃ s₁ rs₁ s₂ rs₂,
      feedUntil sampleSync .REDOWNLOAD sampleSync.new [[nextHeader, nextHeader, nextHeader]] =
        (s₁, rs₁) ∧
      feedUntil sampleSync .FINAL s₁ [[nextHeader], [nextHeader, nextHeader]] = (s₂, rs₂) ∧
      s₁.m_download_state = .REDOWNLOAD ∧ (∀ r ∈ rs₁ ++ rs₂, r.success = true) ∧
      s₂.m_download_state = .FINAL := by
  obtain ⟨s₁, rs₁, s₂, rs₂, hphase₁, hphase₂, hstate₁, hsuccess, hstate₂, -⟩ :=
    honest_sync_completes sampleSync [nextHeader, nextHeader, nextHeader] (by decide)
      ⟨rfl, rfl, rfl, trivial⟩ ⟨by decide +kernel, by decide +kernel, by decide +kernel, trivial⟩
      (by decide +kernel) (by decide +kernel) (by decide +kernel)
      [[nextHeader, nextHeader, nextHeader]] [[nextHeader], [nextHeader, nextHeader]] rfl rfl
      (by decide) (by decide)
  exact ⟨s₁, rs₁, s₂, rs₂, hphase₁, hphase₂, hstate₁, hsuccess, hstate₂⟩

end Rcpu.HeadersSync

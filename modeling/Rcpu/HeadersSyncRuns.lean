import Rcpu.HeadersSync

/-!
# Runs of a headers synchronisation

What a sync has seen and released is recorded beside its state: the headers that the first phase
accepted, those that the second one accepted, and those that were released.  However the peer answers,
the released headers are the first ones of the second download; and a peer that serves one chain twice
always gets it through.
-/

namespace Rcpu.HeadersSync

open Transaction Rcpu.Pow Difficulty HashChain

/-! ### Header chains -/

namespace Sync

variable (sync : Sync)

def Linked (headers : List CBlockHeader) : Prop :=
  Chained sync.hash (fun _ hash header => header.hashPrevBlock = hash) sync.m_chain_start.nHeight
    sync.m_chain_start.blockHash headers

def Permitted (headers : List CBlockHeader) : Prop :=
  Chained CBlockHeader.nBits (fun height oldNBits header =>
      permittedDifficultyTransition sync.m_consensus_params height oldNBits header.nBits = true)
    sync.m_chain_start.nHeight sync.m_chain_start.header.nBits headers

def totalWork (headers : List CBlockHeader) : Nat :=
  sync.m_chain_start.nChainWork + (headers.map fun header => getBlockProof header.nBits).sum

def commitments (headers : List CBlockHeader) : List Bool :=
  sampled sync.IsCommitmentHeight sync.commitment sync.m_chain_start.nHeight headers

def Counts (work : Nat) (headers : List CBlockHeader) : Prop :=
  work ≤ sync.totalWork headers ∧ (sync.totalWork headers < 2 ^ 256 → work = sync.totalWork headers)

/-- The headers of the second download have the bits of the first one, as long as the work was not
reached. -/
def Matched (presync redownload : List CBlockHeader) : Prop :=
  ∀ i header, redownload[i]? = some header →
    sync.IsCommitmentHeight (sync.m_chain_start.nHeight + i + 1) →
    sync.totalWork (redownload.take (i + 1)) < sync.m_minimum_required_work →
    ∃ first, presync[i]? = some first ∧ sync.commitment first = sync.commitment header

end Sync

section Chains

variable {sync : Sync} {l l' : List CBlockHeader} {x : CBlockHeader}

theorem totalWork_append :
    sync.totalWork (l ++ l') =
      sync.totalWork l + (l'.map fun header => getBlockProof header.nBits).sum := by
  rw [Sync.totalWork, List.map_append, List.sum_append, ← Nat.add_assoc, Sync.totalWork]

theorem totalWork_concat : sync.totalWork (l ++ [x]) = sync.totalWork l + getBlockProof x.nBits := by
  rw [totalWork_append, List.map_singleton, List.sum_singleton]

theorem totalWork_le_append (l l' : List CBlockHeader) :
    sync.totalWork l ≤ sync.totalWork (l ++ l') := by
  rw [totalWork_append]
  omega

theorem counts_nil : sync.Counts sync.m_chain_start.nChainWork [] := ⟨Nat.le_refl _, fun _ => rfl⟩

theorem Sync.Counts.concat {work : Nat} (h : sync.Counts work l) (x : CBlockHeader) :
    sync.Counts ((work + getBlockProof x.nBits) % 2 ^ 256) (l ++ [x]) := by
  obtain ⟨hle, heq⟩ := h
  rw [Sync.Counts, totalWork_concat]
  constructor
  · have hmod := Nat.mod_le (work + getBlockProof x.nBits) (2 ^ 256)
    omega
  · intro hlt
    have hwork := heq (by omega)
    rw [hwork, Nat.mod_eq_of_lt hlt]

theorem commitments_concat : sync.commitments (l ++ [x]) = sync.commitments l ++
    if sync.IsCommitmentHeight (sync.m_chain_start.nHeight + l.length + 1) then [sync.commitment x]
    else [] := sampled_concat

theorem linked_concat : sync.Linked (l ++ [x]) ↔
    sync.Linked l ∧ x.hashPrevBlock = tip sync.hash sync.m_chain_start.blockHash l := chained_concat

theorem permitted_concat : sync.Permitted (l ++ [x]) ↔
    sync.Permitted l ∧ permittedDifficultyTransition sync.m_consensus_params
      ((sync.m_chain_start.nHeight + l.length + 1 : Nat) : Int)
      (tip CBlockHeader.nBits sync.m_chain_start.header.nBits l) x.nBits = true := chained_concat

/-- A header that has the next bit, or does not need one, keeps the downloads matched. -/
theorem Sync.Matched.concat {presync redownload : List CBlockHeader}
    (h : sync.Matched presync redownload)
    (hbits : sync.totalWork (redownload ++ [x]) < sync.m_minimum_required_work →
      sync.commitments (redownload ++ [x]) <+: sync.commitments presync) :
    sync.Matched presync (redownload ++ [x]) := by
  intro i header hi hheight hwork
  rcases Nat.lt_trichotomy i redownload.length with hlt | rfl | hgt
  · rw [List.getElem?_append_left hlt] at hi
    rw [List.take_append_of_le_length hlt] at hwork
    exact h i header hi hheight hwork
  · rw [List.take_of_length_le (by simp)] at hwork
    exact getElem?_of_sampled (hbits hwork) hi hheight
  · have hlength : (redownload ++ [x]).length ≤ i := by
      rw [List.length_append]
      exact hgt
    rw [List.getElem?_eq_none hlength] at hi
    cases hi

end Chains

/-! ### One header -/

section Headers

variable {sync : Sync} {s s' : HeadersSyncState} {x : CBlockHeader}

theorem not_rejected {a b : HeadersSyncState} : ¬ (a, false) = (b, true) := by simp

theorem accepted_iff {a b : HeadersSyncState} : (a, true) = (b, true) ↔ a = b := by simp

theorem validateAndProcessSingleHeader_eq_true :
    validateAndProcessSingleHeader sync s x = (s', true) ↔ s.m_download_state = .PRESYNC ∧
      permittedDifficultyTransition sync.m_consensus_params ((s.m_current_height + 1 : Nat) : Int)
        s.m_last_header_received.nBits x.nBits = true ∧
      (sync.IsCommitmentHeight (s.m_current_height + 1) →
        s.m_header_commitments.length < sync.m_max_commitments) ∧
      s' = processHeader s x (s.m_header_commitments ++
        if sync.IsCommitmentHeight (s.m_current_height + 1) then [sync.commitment x] else []) := by
  unfold validateAndProcessSingleHeader
  dsimp only
  generalize permittedDifficultyTransition sync.m_consensus_params
    ((s.m_current_height + 1 : Nat) : Int) s.m_last_header_received.nBits x.nBits = permitted
  by_cases hstate : s.m_download_state = .PRESYNC
  · rw [if_neg (not_not.mpr hstate)]
    cases permitted with
    | false => exact iff_of_false not_rejected (by simp)
    | true =>
      rw [if_neg (by simp)]
      by_cases hheight : sync.IsCommitmentHeight (s.m_current_height + 1)
      · simp only [if_pos hheight, List.length_append, List.length_singleton]
        by_cases hmax : s.m_header_commitments.length < sync.m_max_commitments
        · rw [if_neg (by omega), accepted_iff]
          exact ⟨fun h => ⟨hstate, trivial, fun _ => hmax, h.symm⟩, fun h => h.2.2.2.symm⟩
        · rw [if_pos ⟨hheight, by omega⟩]
          exact iff_of_false not_rejected fun h => hmax (h.2.2.1 hheight)
      · rw [if_neg fun h => hheight h.1, if_neg hheight, if_neg hheight, List.append_nil, accepted_iff]
        exact ⟨fun h => ⟨hstate, rfl, fun h' => absurd h' hheight, h.symm⟩, fun h => h.2.2.2.symm⟩
  · rw [if_pos hstate]
    exact iff_of_false not_rejected fun h => hstate h.1

/-- The work of the second download with one more header, and whether it has been reached. -/
def countHeader (sync : Sync) (s : HeadersSyncState) (header : CBlockHeader) : HeadersSyncState :=
  { s with
    m_redownload_chain_work := (s.m_redownload_chain_work + getBlockProof header.nBits) % 2 ^ 256
    m_process_all_remaining_headers := s.m_process_all_remaining_headers ||
      decide ((s.m_redownload_chain_work + getBlockProof header.nBits) % 2 ^ 256 ≥
        sync.m_minimum_required_work) }

theorem validateAndStoreRedownloadedHeader_eq_true :
    validateAndStoreRedownloadedHeader sync s x = (s', true) ↔ s.m_download_state = .REDOWNLOAD ∧
      x.hashPrevBlock = s.m_redownload_buffer_last_hash ∧
      permittedDifficultyTransition sync.m_consensus_params
        ((s.m_redownload_buffer_last_height + 1 : Nat) : Int) (previousNBits sync s) x.nBits = true ∧
      ∃ rest, s.m_header_commitments =
          (if (countHeader sync s x).m_process_all_remaining_headers = false ∧
            sync.IsCommitmentHeight (s.m_redownload_buffer_last_height + 1)
          then [sync.commitment x] else []) ++ rest ∧
        s' = storeHeader sync (countHeader sync s x) x rest := by
  unfold validateAndStoreRedownloadedHeader
  dsimp only
  generalize permittedDifficultyTransition sync.m_consensus_params
    ((s.m_redownload_buffer_last_height + 1 : Nat) : Int) (previousNBits sync s) x.nBits = permitted
  by_cases hstate : s.m_download_state = .REDOWNLOAD
  · rw [if_neg (not_not.mpr hstate)]
    by_cases hprev : x.hashPrevBlock = s.m_redownload_buffer_last_hash
    · rw [if_neg (not_not.mpr hprev)]
      cases permitted with
      | false => exact iff_of_false not_rejected (by simp)
      | true =>
        rw [if_neg (by simp)]
        change (if (countHeader sync s x).m_process_all_remaining_headers = false ∧
          sync.IsCommitmentHeight (s.m_redownload_buffer_last_height + 1) then _ else _) = _ ↔ _
        by_cases hchecked : (countHeader sync s x).m_process_all_remaining_headers = false ∧
            sync.IsCommitmentHeight (s.m_redownload_buffer_last_height + 1)
        · rw [if_pos hchecked, if_pos hchecked]
          cases hcommitments : s.m_header_commitments with
          | nil => exact iff_of_false not_rejected (by simp)
          | cons expected rest =>
            dsimp only
            by_cases hbit : sync.commitment x = expected
            · rw [if_neg (not_not.mpr hbit), accepted_iff]
              constructor
              · intro h
                exact ⟨hstate, hprev, rfl, rest, by rw [hbit]; rfl, h.symm⟩
              · rintro ⟨-, -, -, rest', hrest, rfl⟩
                rw [List.singleton_append, List.cons.injEq] at hrest
                rw [hrest.2]
                rfl
            · rw [if_pos hbit]
              refine iff_of_false not_rejected ?_
              rintro ⟨-, -, -, rest', hrest, -⟩
              rw [List.singleton_append, List.cons.injEq] at hrest
              exact hbit hrest.1.symm
        · rw [if_neg hchecked, if_neg hchecked, accepted_iff]
          constructor
          · intro h
            exact ⟨hstate, hprev, rfl, s.m_header_commitments, rfl, h.symm⟩
          · rintro ⟨-, -, -, rest, hrest, rfl⟩
            rw [List.nil_append] at hrest
            rw [← hrest]
            rfl
    · rw [if_pos hprev]
      exact iff_of_false not_rejected fun h => hprev h.2.1
  · rw [if_pos hstate]
    exact iff_of_false not_rejected fun h => hstate h.1

end Headers

/-! ### The two phases -/

structure Presyncing (sync : Sync) (s : HeadersSyncState) (presync : List CBlockHeader) : Prop where
  state : s.m_download_state = .PRESYNC
  height : s.m_current_height = sync.m_chain_start.nHeight + presync.length
  last : s.m_last_header_received = tip id sync.m_chain_start.header presync
  commitments : s.m_header_commitments = sync.commitments presync
  work : sync.Counts s.m_current_chain_work presync
  undecided : s.m_process_all_remaining_headers = false

structure Safe (sync : Sync) (presync redownload released : List CBlockHeader) : Prop where
  initial : released <+: redownload
  linked : sync.Linked redownload
  covered : released = [] ∨ released.length + REDOWNLOAD_BUFFER_SIZE ≤ redownload.length ∨
    sync.m_minimum_required_work ≤ sync.totalWork redownload
  matched : sync.Matched presync redownload

/-- The second phase after the headers `redownload`, of which `released` have left the buffer. -/
structure Redownloading (sync : Sync) (s : HeadersSyncState)
    (presync redownload released buffered : List CBlockHeader) : Prop
    extends Safe sync presync redownload released where
  state : s.m_download_state = .REDOWNLOAD
  height : s.m_redownload_buffer_last_height = sync.m_chain_start.nHeight + redownload.length
  lastHash : s.m_redownload_buffer_last_hash = tip sync.hash sync.m_chain_start.blockHash redownload
  buffer : s.m_redownloaded_headers = buffered.map .ofHeader
  split : redownload = released ++ buffered
  firstPrevHash : s.m_redownload_buffer_first_prev_hash =
    tip sync.hash sync.m_chain_start.blockHash released
  busy : redownload ≠ [] → buffered ≠ []
  work : sync.Counts s.m_redownload_chain_work redownload
  reached : s.m_process_all_remaining_headers = true →
    sync.m_minimum_required_work ≤ sync.totalWork redownload
  reached_of : redownload ≠ [] → sync.totalWork redownload < 2 ^ 256 →
    sync.m_minimum_required_work ≤ sync.totalWork redownload →
    s.m_process_all_remaining_headers = true
  commitments : s.m_process_all_remaining_headers = false →
    sync.commitments presync = sync.commitments redownload ++ s.m_header_commitments

section Phases

variable {sync : Sync} {s s' : HeadersSyncState} {x : CBlockHeader}
  {presync redownload released buffered : List CBlockHeader}

theorem presyncing_new (sync : Sync) : Presyncing sync sync.new [] where
  state := rfl
  height := rfl
  last := rfl
  commitments := rfl
  work := counts_nil
  undecided := rfl

theorem Presyncing.step (h : Presyncing sync s presync)
    (hx : validateAndProcessSingleHeader sync s x = (s', true)) :
    Presyncing sync s' (presync ++ [x]) := by
  obtain ⟨-, -, -, rfl⟩ := validateAndProcessSingleHeader_eq_true.mp hx
  refine ⟨h.state, ?_, ?_, ?_, h.work.concat x, h.undecided⟩
  · rw [List.length_append, ← Nat.add_assoc, ← h.height]
    rfl
  · rw [tip_concat]
    rfl
  · rw [commitments_concat, ← h.height, ← h.commitments]
    rfl

theorem safe_of_presync : Safe sync presync [] [] where
  initial := List.nil_prefix
  linked := trivial
  covered := .inl rfl
  matched i header hi := by cases hi

theorem redownloading_start (h : Presyncing sync s presync) :
    Redownloading sync (beginRedownload sync s) presync [] [] [] where
  toSafe := safe_of_presync
  state := rfl
  height := rfl
  lastHash := rfl
  buffer := rfl
  split := rfl
  firstPrevHash := rfl
  busy hne := absurd rfl hne
  work := counts_nil
  reached hflag := by
    rw [show (beginRedownload sync s).m_process_all_remaining_headers = false from h.undecided]
      at hflag
    cases hflag
  reached_of hne := absurd rfl hne
  commitments _ := h.commitments.symm

theorem Safe.concat (h : Safe sync presync redownload released)
    (hlink : x.hashPrevBlock = tip sync.hash sync.m_chain_start.blockHash redownload)
    (hbits : sync.totalWork (redownload ++ [x]) < sync.m_minimum_required_work →
      sync.commitments (redownload ++ [x]) <+: sync.commitments presync) :
    Safe sync presync (redownload ++ [x]) released where
  initial := h.initial.trans (List.prefix_append _ _)
  linked := linked_concat.mpr ⟨h.linked, hlink⟩
  covered := by
    rcases h.covered with hnone | hbuffer | hwork
    · exact .inl hnone
    · refine .inr (.inl ?_)
      rw [List.length_append]
      omega
    · exact .inr (.inr (hwork.trans (totalWork_le_append _ _)))
  matched := h.matched.concat hbits

theorem Redownloading.step (h : Redownloading sync s presync redownload released buffered)
    (hx : validateAndStoreRedownloadedHeader sync s x = (s', true)) :
    Redownloading sync s' presync (redownload ++ [x]) released (buffered ++ [x]) := by
  obtain ⟨-, hprev, -, rest, hrest, rfl⟩ := validateAndStoreRedownloadedHeader_eq_true.mp hx
  have hwork := h.work.concat x
  have hflag : (countHeader sync s x).m_process_all_remaining_headers = true →
      sync.m_minimum_required_work ≤ sync.totalWork (redownload ++ [x]) := by
    intro hflag
    rcases Bool.or_eq_true_iff.mp hflag with hbefore | hnow
    · exact (h.reached hbefore).trans (totalWork_le_append _ _)
    · exact (of_decide_eq_true hnow).trans hwork.1
  have hcommitments : (countHeader sync s x).m_process_all_remaining_headers = false →
      sync.commitments presync = sync.commitments (redownload ++ [x]) ++ rest := by
    intro hundecided
    have hbefore := (Bool.or_eq_false_iff.mp hundecided).1
    rw [h.commitments hbefore, hrest, commitments_concat, ← h.height, List.append_assoc]
    simp only [hundecided, true_and]
  have hsafe := h.toSafe.concat (hprev.trans h.lastHash) (by
    intro hlow
    cases hall : (countHeader sync s x).m_process_all_remaining_headers with
    | false => exact ⟨rest, (hcommitments hall).symm⟩
    | true => exact absurd (hflag hall) (Nat.not_le.mpr hlow))
  refine ⟨hsafe, h.state, ?_, ?_, ?_, ?_, h.firstPrevHash, by simp, hwork, hflag, ?_, hcommitments⟩
  · rw [List.length_append, ← Nat.add_assoc, ← h.height]
    rfl
  · rw [tip_concat]
    rfl
  · rw [List.map_append, ← h.buffer]
    rfl
  · rw [h.split, List.append_assoc]
  · intro _ hlt hmin
    refine Bool.or_eq_true_iff.mpr (.inr (decide_eq_true ?_))
    rwa [ge_iff_le, hwork.2 hlt]

theorem getFullHeader_ofHeader (x : CBlockHeader) :
    (CompressedHeader.ofHeader x).getFullHeader x.hashPrevBlock = x := rfl

/-- Headers that follow one another come out of the buffer as they went in. -/
theorem popHeaders_spec (processAll : Bool) {n : Nat} {prev : Uint256}
    (h : Chained sync.hash (fun _ hash header => header.hashPrevBlock = hash) n prev buffered) :
    ∃ ret left, buffered = ret ++ left ∧ popHeaders sync processAll (buffered.map .ofHeader) prev =
        (ret, left.map .ofHeader, tip sync.hash prev ret) ∧
      left.length = if processAll then 0 else min buffered.length REDOWNLOAD_BUFFER_SIZE := by
  induction buffered generalizing n prev with
  | nil => exact ⟨[], [], rfl, rfl, by simp⟩
  | cons x rest ih =>
    obtain ⟨hprev, hrest⟩ := h
    rw [List.map_cons, popHeaders, ← hprev, getFullHeader_ofHeader, List.length_cons, List.length_map]
    by_cases hready : rest.length + 1 > REDOWNLOAD_BUFFER_SIZE ∨ processAll = true
    · obtain ⟨ret, left, hsplit, hpop, hleft⟩ := ih hrest
      rw [if_pos hready]
      dsimp only
      rw [hpop]
      refine ⟨x :: ret, left, by rw [hsplit, List.cons_append], rfl, ?_⟩
      rw [hleft, List.length_cons]
      split_ifs with hall
      · rfl
      · have hlong := hready.resolve_right hall
        omega
    · rw [if_neg hready]
      refine ⟨[], x :: rest, rfl, rfl, ?_⟩
      rw [if_neg fun hall => hready (.inr hall), List.length_cons]
      omega

theorem Redownloading.linked_buffered
    (h : Redownloading sync s presync redownload released buffered) :
    Chained sync.hash (fun _ hash header => header.hashPrevBlock = hash)
      (sync.m_chain_start.nHeight + released.length)
      (tip sync.hash sync.m_chain_start.blockHash released) buffered := by
  have hlinked := h.linked
  rw [h.split] at hlinked
  exact (chained_append.mp hlinked).2

/-- What leaves the buffer was covered, and unless the work has been reached the sync goes on. -/
theorem Redownloading.pop (h : Redownloading sync s presync redownload released buffered) :
    ∃ s' ret left, popHeadersReadyForAcceptance sync s = (s', ret) ∧
      s'.m_process_all_remaining_headers = s.m_process_all_remaining_headers ∧
      s'.m_redownloaded_headers = left.map .ofHeader ∧ buffered = ret ++ left ∧
      Safe sync presync redownload (released ++ ret) ∧
      (s.m_process_all_remaining_headers = true → left = []) ∧
      (s.m_process_all_remaining_headers = false →
        Redownloading sync s' presync redownload (released ++ ret) left) := by
  obtain ⟨ret, left, hsplit, hpop, hleft⟩ :=
    popHeaders_spec s.m_process_all_remaining_headers h.linked_buffered
  rw [← h.buffer, ← h.firstPrevHash] at hpop
  have hwhole : redownload = released ++ ret ++ left := by
    rw [h.split, hsplit, List.append_assoc]
  have hlength := congrArg List.length hsplit
  have hwhole_length := congrArg List.length hwhole
  rw [List.length_append] at hlength
  rw [List.length_append] at hwhole_length
  have hcovered : released ++ ret = [] ∨
      (released ++ ret).length + REDOWNLOAD_BUFFER_SIZE ≤ redownload.length ∨
        sync.m_minimum_required_work ≤ sync.totalWork redownload := by
    cases hall : s.m_process_all_remaining_headers with
    | true => exact .inr (.inr (h.reached hall))
    | false =>
      rw [hall, if_neg Bool.false_ne_true] at hleft
      by_cases hlong : REDOWNLOAD_BUFFER_SIZE ≤ buffered.length
      · refine .inr (.inl ?_)
        omega
      · have hnone : ret = [] := List.eq_nil_of_length_eq_zero (by omega)
        rw [hnone, List.append_nil]
        exact h.covered
  have hsafe : Safe sync presync redownload (released ++ ret) :=
    ⟨⟨left, hwhole.symm⟩, h.linked, hcovered, h.matched⟩
  refine ⟨{ s with
    m_redownloaded_headers := left.map .ofHeader
    m_redownload_buffer_first_prev_hash := tip sync.hash s.m_redownload_buffer_first_prev_hash ret },
    ret, left, ?_, rfl, rfl, hsplit, hsafe, ?_, ?_⟩
  · unfold popHeadersReadyForAcceptance
    rw [if_neg (not_not.mpr h.state), hpop]
  · intro hall
    rw [hall, if_pos rfl] at hleft
    exact List.eq_nil_of_length_eq_zero hleft
  · intro hall
    rw [hall, if_neg Bool.false_ne_true] at hleft
    refine ⟨hsafe, h.state, h.height, h.lastHash, rfl, hwhole, ?_, ?_, h.work, h.reached, h.reached_of,
      h.commitments⟩
    · rw [tip_append, ← h.firstPrevHash]
    · intro hne hnil
      have hbuffered := List.length_pos_iff.mpr (h.busy hne)
      rw [hnil, List.length_nil] at hleft
      have hsize : 0 < REDOWNLOAD_BUFFER_SIZE := by decide
      omega

end Phases

/-! ### Runs -/

structure Call where
  headers : List CBlockHeader
  full : Bool

structure History where
  presync : List CBlockHeader := []
  redownload : List CBlockHeader := []
  released : List CBlockHeader := []

section Runs

variable (sync : Sync)

def presyncAccepted (s : HeadersSyncState) (headers : List CBlockHeader) : List CBlockHeader :=
  match s.m_download_state, headers with
  | .PRESYNC, first :: _ =>
    if first.hashPrevBlock = sync.hash s.m_last_header_received then
      accepted (validateAndProcessSingleHeader sync) s headers
    else []
  | _, _ => []

def redownloadAccepted (s : HeadersSyncState) (headers : List CBlockHeader) : List CBlockHeader :=
  match s.m_download_state with
  | .REDOWNLOAD => accepted (validateAndStoreRedownloadedHeader sync) s headers
  | _ => []

def respond (s : HeadersSyncState) (call : Call) : HeadersSyncState × ProcessingResult :=
  processNextHeaders sync s call.headers call.full

def record (s : HeadersSyncState) (h : History) (call : Call) : History where
  presync := h.presync ++ presyncAccepted sync s call.headers
  redownload := h.redownload ++ redownloadAccepted sync s call.headers
  released := h.released ++ (respond sync s call).2.pow_validated_headers

def history : HeadersSyncState → History → List Call → History
  | _, h, [] => h
  | s, h, call :: calls => history (respond sync s call).1 (record sync s h call) calls

def results : HeadersSyncState → List Call → List ProcessingResult
  | _, [] => []
  | s, call :: calls => (respond sync s call).2 :: results (respond sync s call).1 calls

def releasedBy (rs : List ProcessingResult) : List CBlockHeader :=
  (rs.map ProcessingResult.pow_validated_headers).flatten

inductive Tracks : HeadersSyncState → History → Prop
  | presync {s : HeadersSyncState} {l : List CBlockHeader} (h : Presyncing sync s l) :
    Tracks s ⟨l, [], []⟩
  | redownload {s : HeadersSyncState} {presync redownload released buffered : List CBlockHeader}
    (h : Redownloading sync s presync redownload released buffered) :
    Tracks s ⟨presync, redownload, released⟩
  | final {s : HeadersSyncState} {presync redownload released : List CBlockHeader}
    (hstate : s.m_download_state = .FINAL) (h : Safe sync presync redownload released) :
    Tracks s ⟨presync, redownload, released⟩

variable {sync} {s : HeadersSyncState} {h : History} {call : Call}

theorem Tracks.safe (ht : Tracks sync s h) : Safe sync h.presync h.redownload h.released := by
  cases ht with
  | presync h => exact safe_of_presync
  | redownload h => exact h.toSafe
  | final hstate h => exact h

theorem respond_of_final (hfinal : s.m_download_state = .FINAL) : respond sync s call = (s, {}) := by
  rw [respond, processNextHeaders]
  split_ifs
  · rfl
  · rfl

def settleCall (r : HeadersSyncState × ProcessingResult) : HeadersSyncState × ProcessingResult :=
  (if r.2.success ∧ r.2.request_more then r.1 else r.1.finalize, r.2)

theorem settleCall_eq {r : HeadersSyncState × ProcessingResult} (hsuccess : r.2.success = true)
    (hmore : r.2.request_more = true) : settleCall r = r := by
  rw [settleCall, if_pos ⟨hsuccess, hmore⟩]

theorem final_settleCall {r : HeadersSyncState × ProcessingResult}
    (hstop : ¬ (r.2.success ∧ r.2.request_more)) : (settleCall r).1.m_download_state = .FINAL := by
  rw [settleCall, if_neg hstop]
  rfl

theorem respond_of_presync (hne : call.headers ≠ []) (hstate : s.m_download_state = .PRESYNC) :
    respond sync s call = settleCall (processPresync sync s call.headers call.full) := by
  rw [respond, processNextHeaders, if_neg hne, if_neg (by rw [hstate]; decide), hstate]
  rfl

theorem respond_of_redownload (hne : call.headers ≠ []) (hstate : s.m_download_state = .REDOWNLOAD) :
    respond sync s call = settleCall (processRedownload sync s call.headers call.full) := by
  rw [respond, processNextHeaders, if_neg hne, if_neg (by rw [hstate]; decide), hstate]
  rfl

theorem final_of_stopped (hne : call.headers ≠ []) (hstop : ¬ ((respond sync s call).2.success ∧
    (respond sync s call).2.request_more)) : (respond sync s call).1.m_download_state = .FINAL := by
  cases hstate : s.m_download_state with
  | PRESYNC =>
    rw [respond_of_presync hne hstate] at hstop ⊢
    exact final_settleCall hstop
  | REDOWNLOAD =>
    rw [respond_of_redownload hne hstate] at hstop ⊢
    exact final_settleCall hstop
  | FINAL => rw [respond_of_final hstate, hstate]

theorem results_of_final (hfinal : s.m_download_state = .FINAL) (calls : List Call) :
    ∀ r ∈ results sync s calls, r.pow_validated_headers = [] := by
  induction calls with
  | nil => simp [results]
  | cons call calls ih =>
    intro r hr
    rw [results, respond_of_final hfinal] at hr
    rcases List.mem_cons.mp hr with rfl | hrest
    · rfl
    · exact ih r hrest

/-- A message in the first phase: it does not connect, a header is rejected, the work is reached, or
the phase goes on. -/
theorem processPresync_cases {first : CBlockHeader} {rest : List CBlockHeader}
    (hheaders : call.headers = first :: rest) (hstate : s.m_download_state = .PRESYNC) :
    (first.hashPrevBlock ≠ sync.hash s.m_last_header_received ∧
        processPresync sync s call.headers call.full = (s, {})) ∨
      first.hashPrevBlock = sync.hash s.m_last_header_received ∧
        ∃ s' ok, feed (validateAndProcessSingleHeader sync) s call.headers = (s', ok) ∧
          processPresync sync s call.headers call.full =
            if ok then
              if s'.m_current_chain_work ≥ sync.m_minimum_required_work then
                (beginRedownload sync s', { success := true, request_more := true })
              else (s', { success := true, request_more := call.full || s'.m_download_state = .REDOWNLOAD })
            else (s', {}) := by
  unfold processPresync validateAndStoreHeadersCommitments
  rw [hheaders]
  dsimp only
  rw [if_neg (not_not.mpr hstate)]
  by_cases hconnects : first.hashPrevBlock = sync.hash s.m_last_header_received
  · rw [if_neg (not_not.mpr hconnects)]
    refine .inr ⟨hconnects, ?_⟩
    rcases feed (validateAndProcessSingleHeader sync) s (first :: rest) with ⟨s', _ | _⟩
    · exact ⟨s', false, rfl, rfl⟩
    · refine ⟨s', true, rfl, ?_⟩
      dsimp only
      rw [if_pos rfl]
      split_ifs
      · simp [beginRedownload]
      · rfl
  · rw [if_pos hconnects]
    exact .inl ⟨hconnects, rfl⟩

theorem Tracks.respond_presync {l : List CBlockHeader} (hs : Presyncing sync s l)
    (hne : call.headers ≠ []) :
    Tracks sync (respond sync s call).1 (record sync s ⟨l, [], []⟩ call) := by
  obtain ⟨first, rest, hheaders⟩ := List.exists_cons_of_ne_nil hne
  have hredownload : redownloadAccepted sync s call.headers = [] := by
    unfold redownloadAccepted
    rw [hs.state]
  have hpresync : presyncAccepted sync s call.headers =
      if first.hashPrevBlock = sync.hash s.m_last_header_received then
        accepted (validateAndProcessSingleHeader sync) s call.headers
      else [] := by
    unfold presyncAccepted
    rw [hs.state, hheaders]
  obtain ⟨s', hs', hall⟩ := exists_accepted (P := Presyncing sync)
    (fun _ _ _ _ h hx => h.step hx) hs call.headers
  rw [record, hredownload, hpresync, respond_of_presync hne hs.state]
  rcases processPresync_cases hheaders hs.state with ⟨-, hresult⟩ | ⟨hconnects, s₁, ok, hfeed, hresult⟩
  · rw [hresult]
    exact .final rfl safe_of_presync
  · rw [if_pos hconnects, hresult]
    cases ok with
    | false => exact .final rfl safe_of_presync
    | true =>
      obtain ⟨hs₁, -⟩ := hall (by rw [hfeed])
      rw [hfeed] at hs₁
      obtain rfl : s₁ = s' := hs₁
      rw [if_pos rfl]
      split_ifs with hwork
      · exact .redownload (redownloading_start hs')
      · cases hfull : call.full with
        | true => exact .presync hs'
        | false =>
          rw [hs'.state]
          exact .final rfl safe_of_presync

theorem processRedownload_eq {s' : HeadersSyncState} {headers : List CBlockHeader} {full : Bool}
    (hfeed : feed (validateAndStoreRedownloadedHeader sync) s headers = (s', true)) :
    processRedownload sync s headers full = ((popHeadersReadyForAcceptance sync s').1,
      { pow_validated_headers := (popHeadersReadyForAcceptance sync s').2
        success := true
        request_more :=
          !((popHeadersReadyForAcceptance sync s').1.m_redownloaded_headers.isEmpty &&
            (popHeadersReadyForAcceptance sync s').1.m_process_all_remaining_headers) && full }) := by
  rw [processRedownload, hfeed]

theorem Tracks.respond_redownload {presync redownload released buffered : List CBlockHeader}
    (hs : Redownloading sync s presync redownload released buffered) (hne : call.headers ≠ []) :
    Tracks sync (respond sync s call).1 (record sync s ⟨presync, redownload, released⟩ call) := by
  have hpresync : presyncAccepted sync s call.headers = [] := by
    unfold presyncAccepted
    rw [hs.state]
  have hredownload : redownloadAccepted sync s call.headers =
      accepted (validateAndStoreRedownloadedHeader sync) s call.headers := by
    unfold redownloadAccepted
    rw [hs.state]
  obtain ⟨s', ⟨buffered', hs'⟩, hall⟩ := exists_accepted
    (P := fun s l => ∃ buffered, Redownloading sync s presync l released buffered)
    (fun _ _ _ _ ⟨_, h⟩ hx => ⟨_, h.step hx⟩) ⟨buffered, hs⟩ call.headers
  rw [record, hredownload, hpresync, List.append_nil, respond_of_redownload hne hs.state]
  rcases hfeed : feed (validateAndStoreRedownloadedHeader sync) s call.headers with ⟨s₁, _ | _⟩
  · rw [show processRedownload sync s call.headers call.full = (s₁, {}) by
      rw [processRedownload, hfeed]]
    refine .final rfl ?_
    rw [show (settleCall (s₁, {})).2.pow_validated_headers = [] from rfl, List.append_nil]
    exact hs'.toSafe
  · obtain ⟨hs₁, -⟩ := hall (by rw [hfeed])
    rw [hfeed] at hs₁
    obtain rfl : s₁ = s' := hs₁
    obtain ⟨s₂, ret, left, hpop, hflag, hbuffer, -, hsafe, hdone, hgoes⟩ := hs'.pop
    rw [processRedownload_eq hfeed, hpop]
    cases hflag₁ : s₁.m_process_all_remaining_headers with
    | true =>
      -- the buffer has been emptied, and the sync is complete
      refine .final (final_settleCall ?_) hsafe
      rw [hbuffer, hdone hflag₁, hflag, hflag₁]
      simp
    | false =>
      cases hfull : call.full with
      | true =>
        rw [settleCall_eq rfl (by rw [hflag, hflag₁, Bool.and_false]; rfl)]
        exact .redownload (hgoes hflag₁)
      | false => exact .final (final_settleCall (by simp)) hsafe

theorem Tracks.respond (ht : Tracks sync s h) (hne : call.headers ≠ []) :
    Tracks sync (respond sync s call).1 (record sync s h call) := by
  cases ht with
  | presync hs => exact respond_presync hs hne
  | redownload hs => exact respond_redownload hs hne
  | final hstate hsafe =>
    have hpresync : presyncAccepted sync s call.headers = [] := by
      unfold presyncAccepted
      rw [hstate]
    have hredownload : redownloadAccepted sync s call.headers = [] := by
      unfold redownloadAccepted
      rw [hstate]
    rw [record, hpresync, hredownload, respond_of_final hstate]
    simp only [List.append_nil]
    exact .final hstate hsafe

theorem Tracks.history (ht : Tracks sync s h) {calls : List Call}
    (hcalls : ∀ call ∈ calls, call.headers ≠ []) :
    ∃ s', Tracks sync s' (history sync s h calls) := by
  induction calls generalizing s h with
  | nil => exact ⟨s, ht⟩
  | cons call calls ih =>
    exact ih (ht.respond (hcalls call List.mem_cons_self))
      fun call hcall => hcalls call (List.mem_cons_of_mem _ hcall)

theorem released_history (s : HeadersSyncState) (h : History) (calls : List Call) :
    (history sync s h calls).released = h.released ++ releasedBy (results sync s calls) := by
  induction calls generalizing s h with
  | nil => simp [history, results, releasedBy]
  | cons call calls ih =>
    rw [history, ih, record, List.append_assoc]
    rfl

/-- A call that does not succeed or does not ask for more is the last one to release anything. -/
theorem pairwise_results (s : HeadersSyncState) {calls : List Call}
    (hcalls : ∀ call ∈ calls, call.headers ≠ []) :
    (results sync s calls).Pairwise fun r later =>
      ¬ (r.success ∧ r.request_more) → later.pow_validated_headers = [] := by
  induction calls generalizing s with
  | nil => exact .nil
  | cons call calls ih =>
    refine .cons ?_ (ih _ fun call hcall => hcalls call (List.mem_cons_of_mem _ hcall))
    intro later hlater hstop
    exact results_of_final (final_of_stopped (hcalls call List.mem_cons_self) hstop) calls later hlater

end Runs

/-- **What a sync releases is safe to process**: the first headers of the second download, chained
from the start, each buried deep enough or past the work, with the bits of the first download; and
nothing after a call that failed. -/
theorem released_headers_safe (sync : Sync) (calls : List Call)
    (hcalls : ∀ call ∈ calls, call.headers ≠ []) :
    let rs := results sync sync.new calls
    let h := history sync sync.new {} calls
    releasedBy rs <+: h.redownload ∧ sync.Linked (releasedBy rs) ∧
      (∀ i < (releasedBy rs).length, i + 1 + REDOWNLOAD_BUFFER_SIZE ≤ h.redownload.length ∨
        sync.m_minimum_required_work ≤ sync.totalWork h.redownload) ∧
      sync.Matched h.presync h.redownload ∧
      rs.Pairwise fun r later => ¬ (r.success ∧ r.request_more) → later.pow_validated_headers = [] := by
  intro rs h
  obtain ⟨s', ht⟩ := Tracks.history (.presync (presyncing_new sync)) hcalls
  have hreleased : h.released = releasedBy rs := released_history _ _ calls
  have hsafe := ht.safe
  rw [show (history sync sync.new ⟨[], [], []⟩ calls).released = releasedBy rs from hreleased] at hsafe
  refine ⟨hsafe.initial, ?_, ?_, hsafe.matched, pairwise_results _ hcalls⟩
  · obtain ⟨rest, hrest⟩ := hsafe.initial
    have hlinked := hsafe.linked
    rw [← hrest] at hlinked
    exact hlinked.of_append
  · intro i hi
    rcases hsafe.covered with hnone | hbuffer | hwork
    · rw [hnone] at hi
      cases hi
    · left
      show i + 1 + REDOWNLOAD_BUFFER_SIZE ≤ (history sync sync.new {} calls).redownload.length
      omega
    · exact .inr hwork

section Sample

/-- A sync from a block of work 2 that wants two more blocks, with a commitment at height 1. -/
def sampleSync : Sync where
  hashes := sampleHashes
  m_consensus_params := sampleParams
  m_chain_start := ⟨0, 2, sampleHeader, smallHash 1, rfl⟩
  m_minimum_required_work := 6
  m_commit_offset := ⟨1, by decide⟩
  m_hasher _ := 1
  m_max_commitments := 1

/-- A header that follows the start and itself, all hashes being equal. -/
def nextHeader : CBlockHeader := { sampleHeader with hashPrevBlock := smallHash 1 }

def sampleCalls : List Call :=
  [⟨[nextHeader, nextHeader], true⟩, ⟨[nextHeader], true⟩, ⟨[nextHeader], false⟩]

theorem released_headers_safe_sampleCalls :
    (∀ call ∈ sampleCalls, call.headers ≠ []) ∧
      releasedBy (results sampleSync sampleSync.new sampleCalls) = [nextHeader, nextHeader] ∧
      sampleSync.Linked (releasedBy (results sampleSync sampleSync.new sampleCalls)) := by
  have hcalls : ∀ call ∈ sampleCalls, call.headers ≠ [] := by decide
  exact ⟨hcalls, by decide +kernel, (released_headers_safe sampleSync sampleCalls hcalls).2.1⟩

end Sample

end Rcpu.HeadersSync

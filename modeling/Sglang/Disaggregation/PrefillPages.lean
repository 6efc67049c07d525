import Sglang.Disaggregation.PrefillQueues

/-! # The pages that the prefill server sends

Every page of a prompt is handed to the sender once and in the order of the prompt, however the
prompt is divided into chunks: `start_send_idx` stays a multiple of the page size until the last
chunk, and is never ahead of the prefilled tokens. -/
set_option autoImplicit false

namespace Sglang.Disaggregation.Prefill
open Sglang.Lib List Function

/-! ## Pages of a range of positions -/

/-- The positions from `a` on and below `b` at which a page starts. -/
def pageStarts (pageSize a b : ℕ) : List ℕ :=
  (range' a (b - a)).filter fun pos => decide (pageSize ∣ pos)

section PageStarts
variable {ps a b d n : ℕ}

theorem pageStarts_append (ps : ℕ) (hab : a ≤ b) (hbd : b ≤ d) :
    pageStarts ps a b ++ pageStarts ps b d = pageStarts ps a d := by
  have hlen : d - a = (b - a) + (d - b) := by omega
  have hstart : a + (b - a) = b := by omega
  have hrange : range' a (b - a) ++ range' (a + (b - a)) (d - b) = range' a (b - a + (d - b)) :=
    range'_append_1
  rw [hstart] at hrange
  rw [pageStarts, pageStarts, pageStarts, ← filter_append, hlen, hrange]

theorem mem_pageStarts_self (hdvd : ps ∣ a) (hab : a < b) : a ∈ pageStarts ps a b := by
  refine mem_filter.mpr ⟨mem_range'_1.mpr ⟨le_rfl, by omega⟩, ?_⟩
  simpa using hdvd

theorem kvToPageNum_succ (hps : 0 < ps) :
    kvToPageNum (n + 1) ps = kvToPageNum n ps + if ps ∣ n then 1 else 0 := by
  have hsum : n + 1 + ps - 1 = (n + ps - 1) + 1 := by omega
  have hdvd : ps ∣ n + ps - 1 + 1 ↔ ps ∣ n := by
    have hshift : n + ps - 1 + 1 = n + ps := by omega
    rw [hshift, Nat.dvd_add_self_right]
  rw [kvToPageNum, hsum, Nat.succ_div, if_congr hdvd rfl rfl, kvToPageNum]

theorem kvToPageNum_zero (hps : 0 < ps) : kvToPageNum 0 ps = 0 := by
  rw [kvToPageNum]
  exact Nat.div_eq_of_lt (by omega)

theorem map_range_pageStarts (hps : 0 < ps) (hdvd : ps ∣ a) (n : ℕ) :
    ((range (kvToPageNum n ps)).map fun k => a + k * ps) = (range' a n).filter fun pos =>
      decide (ps ∣ pos) := by
  induction n with
  | zero => rw [kvToPageNum_zero hps]; rfl
  | succ n ih =>
    rw [kvToPageNum_succ hps, range'_1_concat, filter_append, ← ih]
    have hstart : ps ∣ a + n ↔ ps ∣ n := (Nat.dvd_add_right hdvd)
    by_cases hn : ps ∣ n
    · have hpages : kvToPageNum n ps = n / ps := by
        obtain ⟨k, rfl⟩ := hn
        have hsum : ps * k + ps - 1 = ps * k + (ps - 1) := by omega
        rw [kvToPageNum, hsum, Nat.mul_add_div hps, Nat.div_eq_of_lt (show ps - 1 < ps by omega),
          Nat.mul_div_cancel_left k hps]
        rfl
      rw [if_pos hn, range_succ, map_append, filter_cons_of_pos (by simpa using hstart.mpr hn),
        filter_nil, map_cons, hpages, Nat.div_mul_cancel hn, map_nil]
    · rw [if_neg hn, Nat.add_zero, filter_cons_of_neg (by simpa using mt hstart.mp hn), filter_nil,
        append_nil]

theorem length_pageStarts (hps : 0 < ps) (n : ℕ) : (pageStarts ps 0 n).length = kvToPageNum n ps := by
  rw [pageStarts, Nat.sub_zero, ← map_range_pageStarts hps (Nat.dvd_zero ps) n, length_map,
    length_range]

theorem mul_lt_of_lt_kvToPageNum {k : ℕ} (hps : 0 < ps) (hk : k < kvToPageNum n ps) : k * ps < n := by
  rw [kvToPageNum, Nat.lt_div_iff_mul_lt hps] at hk
  omega

theorem kvToPageIndices_range' (hps : 0 < ps) (hdvd : ps ∣ a) (row : ℕ → ℕ) :
    kvToPageIndices ((range' a (b - a)).map row) ps = (pageStarts ps a b).map fun pos =>
      row pos / ps := by
  have hstride : stride ps ((range' a (b - a)).map row) = (pageStarts ps a b).map row := by
    rw [pageStarts, ← map_range_pageStarts hps hdvd, map_map, stride, length_map, length_range']
    refine map_congr_left fun k hk => ?_
    have hlt := mul_lt_of_lt_kvToPageNum hps (mem_range.mp hk)
    rw [getD_eq_getElem?_getD, getElem?_map, getElem?_range' hlt, Nat.one_mul]
    rfl
  unfold kvToPageIndices
  split
  · next hone =>
    subst hone
    have hall : pageStarts 1 a b = range' a (b - a) := filter_eq_self.mpr fun pos _ => by simp
    rw [hall]
    refine map_congr_left fun pos _ => ?_
    rw [Nat.div_one]
  · rw [hstride, map_map]
    rfl

end PageStarts

/-! ## One request -/

def Send.positions (c : Config) (x : Send) : List ℕ := pageStarts c.pageSize x.startIdx x.endIdx

/-- What the sender of a request has got: no page twice, none left out, and the last pages with the
metadata. -/
structure Sent (c : Config) (r : Req) : Prop where
  /-- The pages of the positions, as the row holds them when they are sent. -/
  pages : ∀ x ∈ r.sends, x.pages = (x.positions c).map (fun pos => x.row pos / c.pageSize) ∧
    x.pages ≠ []
  /-- The positions `0, page_size, 2 * page_size, ...` below `start_send_idx`. -/
  positions : r.sends.flatMap (Send.positions c) = pageStarts c.pageSize 0 r.startSendIdx
  counted : r.currIdx = (r.sends.flatMap Send.pages).length
  unfinished : r.prefilled = false → ∀ x ∈ r.sends, x.lastChunk = false ∧ x.isLast = false
  /-- After the last chunk all positions below the length of the prompt are sent. -/
  finished : r.prefilled = true → r.startSendIdx = r.originLen ∧
    (r.sends.flatMap Send.pages).length = r.numKvIndices ∧
      r.numKvIndices = kvToPageNum r.originLen c.pageSize ∧
    ∃ chunks final, r.sends = chunks ++ [final] ∧
      (final.lastChunk = true ∧ final.metadataSet = true ∧ final.isLast = true) ∧
      ∀ x ∈ chunks, x.lastChunk = false ∧ x.isLast = false

section Send
variable {c : Config} {r r' : Req}

theorem sent_newReq (n : ℕ) : Sent c (newReq n) :=
  ⟨fun _ hx => (nomatch hx), rfl, rfl, fun _ _ hx => (nomatch hx), fun h => Bool.noConfusion h⟩

theorem Sent.congr (h : Sent c r) (hsends : r'.sends = r.sends)
    (hstart : r'.startSendIdx = r.startSendIdx)
    (hcurr : r'.currIdx = r.currIdx) (hprefilled : r'.prefilled = r.prefilled)
    (horigin : r'.originLen = r.originLen)
    (hnum : r.prefilled = true → r'.numKvIndices = r.numKvIndices) : Sent c r' := by
  refine ⟨?_, ?_, ?_, ?_, fun hp => ?_⟩
  · rw [hsends]
    exact h.pages
  · rw [hsends, hstart]
    exact h.positions
  · rw [hsends, hcurr]
    exact h.counted
  · rw [hsends, hprefilled]
    exact h.unfinished
  · rw [hprefilled] at hp
    rw [hsends, hstart, horigin, hnum hp]
    exact h.finished hp

theorem Sent.length_pages (h : Sent c r) : r.currIdx = kvToPageNum r.startSendIdx c.pageSize := by
  rw [h.counted, ← length_pageStarts c.pageSize_pos, ← h.positions, length_flatMap, length_flatMap]
  refine congrArg sum (map_congr_left fun x hx => ?_)
  rw [(h.pages x hx).1, length_map]

/-- The end of the range that a call of `send_kv_chunk` covers. -/
def sendEnd (c : Config) (r : Req) (lastChunk : Bool) (endIdx : Option ℕ) : ℕ :=
  let e := endIdx.getD (min r.fillLen r.originLen)
  if lastChunk then e else e - e % c.pageSize

theorem sendKvChunk_eq (hdvd : c.pageSize ∣ r.startSendIdx) {lastChunk : Bool}
    {endIdx : Option ℕ} {e : ℕ}
    (he : sendEnd c r lastChunk endIdx = e) : sendKvChunk c r lastChunk endIdx = { r with
        startSendIdx := e
        metadataSet := r.metadataSet || lastChunk
        currIdx := r.currIdx + (pageStarts c.pageSize r.startSendIdx e).length
        sends := r.sends ++ if pageStarts c.pageSize r.startSendIdx e = [] then [] else
          [⟨r.row, r.startSendIdx, e, (pageStarts c.pageSize r.startSendIdx e).map fun pos =>
            r.row pos / c.pageSize, lastChunk,
            r.metadataSet || lastChunk,
              decide (r.currIdx + (pageStarts c.pageSize r.startSendIdx e).length =
                r.numKvIndices)⟩] } := by
  subst he
  have hpages := kvToPageIndices_range' (b := sendEnd c r lastChunk endIdx) c.pageSize_pos hdvd r.row
  by_cases hnil : pageStarts c.pageSize r.startSendIdx (sendEnd c r lastChunk endIdx) = []
  · simp only [sendEnd] at hpages hnil
    simp only [sendKvChunk, Req.send, hpages, sendEnd, hnil, map_nil, if_pos, length_nil,
      Nat.add_zero, append_nil]
  · simp only [sendEnd] at hpages hnil
    simp only [sendKvChunk, Req.send, hpages, map_eq_nil_iff, sendEnd, length_map, if_neg hnil]
    congr 2
    exact (if_neg hnil).symm

theorem Sent.append (h : Sent c r) {e : ℕ} (hle : r.startSendIdx ≤ e) {lastChunk metadata isLast : Bool}
    {sends : List Send}
    (hsends : sends = r.sends ++ if pageStarts c.pageSize r.startSendIdx e = [] then [] else
      [⟨r.row, r.startSendIdx, e, (pageStarts c.pageSize r.startSendIdx e).map fun pos =>
        r.row pos / c.pageSize, lastChunk, metadata,
        isLast⟩]) :
    (∀ x ∈ sends, x.pages = (x.positions c).map (fun pos => x.row pos / c.pageSize) ∧ x.pages ≠ []) ∧
      sends.flatMap (Send.positions c) = pageStarts c.pageSize 0 e ∧
      r.currIdx + (pageStarts c.pageSize r.startSendIdx e).length =
        (sends.flatMap Send.pages).length := by
  have hall := pageStarts_append c.pageSize (Nat.zero_le r.startSendIdx) hle
  by_cases hnil : pageStarts c.pageSize r.startSendIdx e = []
  · rw [if_pos hnil, append_nil] at hsends
    rw [hnil, append_nil] at hall
    rw [hsends, hnil, ← hall]
    exact ⟨h.pages, h.positions, h.counted⟩
  · rw [if_neg hnil] at hsends
    refine ⟨fun x hx => ?_, ?_, ?_⟩
    · rw [hsends] at hx
      rcases mem_append.mp hx with hx | hx
      · exact h.pages x hx
      · obtain rfl := mem_singleton.mp hx
        exact ⟨rfl, mt map_eq_nil_iff.mp hnil⟩
    · rw [hsends, flatMap_append, h.positions, ← hall]
      exact congrArg _ (append_nil _)
    · rw [hsends, flatMap_append, length_append, ← h.counted, flatMap_cons, flatMap_nil, append_nil,
        length_map]

theorem Sent.currIdx_add (h : Sent c r) {e : ℕ} (hle : r.startSendIdx ≤ e) :
    r.currIdx + (pageStarts c.pageSize r.startSendIdx e).length = kvToPageNum e c.pageSize := by
  have hall := congrArg length (pageStarts_append c.pageSize (Nat.zero_le r.startSendIdx) hle)
  rw [length_append, length_pageStarts c.pageSize_pos, length_pageStarts c.pageSize_pos] at hall
  rw [h.length_pages, hall]

theorem kvToPageNum_lt {ps a n : ℕ} (hps : 0 < ps) (hdvd : ps ∣ a) (hlt : a < n) :
    kvToPageNum a ps < kvToPageNum n ps := by
  have hall := congrArg length (pageStarts_append ps (Nat.zero_le a) hlt.le)
  rw [length_append, length_pageStarts hps, length_pageStarts hps] at hall
  have hpos := length_pos_of_mem (mem_pageStarts_self hdvd hlt)
  omega

/-- A request that is being prefilled: the pages of the chunks that are done are sent. -/
structure Sending (c : Config) (r : Req) : Prop where
  sent : Sent c r
  notPrefilled : r.prefilled = false
  announced : r.numKvIndices = kvToPageNum r.originLen c.pageSize
  dvd : c.pageSize ∣ r.startSendIdx
  lt : r.startSendIdx < r.originLen

theorem Sending.congr (h : Sending c r) (hsends : r'.sends = r.sends)
    (hstart : r'.startSendIdx = r.startSendIdx)
    (hcurr : r'.currIdx = r.currIdx) (hprefilled : r'.prefilled = r.prefilled)
    (horigin : r'.originLen = r.originLen)
    (hnum : r'.numKvIndices = r.numKvIndices) : Sending c r' :=
  ⟨h.sent.congr hsends hstart hcurr hprefilled horigin fun _ => hnum,
    hprefilled.trans h.notPrefilled, by rw [hnum, horigin]; exact h.announced, hstart ▸ h.dvd,
    by rw [hstart, horigin]; exact h.lt⟩

theorem le_sub_mod {ps a e : ℕ} (hps : 0 < ps) (hdvd : ps ∣ a) (hle : a ≤ e) : a ≤ e - e % ps := by
  obtain ⟨k, rfl⟩ := hdvd
  rw [← Nat.mul_div_self_eq_mod_sub_self]
  refine Nat.mul_le_mul_left _ ((Nat.le_div_iff_mul_le hps).mpr ?_)
  rwa [Nat.mul_comm]

theorem Sending.chunk (h : Sending c r) (endIdx : Option ℕ)
    (hle : r.startSendIdx ≤ endIdx.getD (min r.fillLen r.originLen))
    (hlt : endIdx.getD (min r.fillLen r.originLen) < r.originLen) :
    Sending c (sendKvChunk c r false endIdx) ∧
      (sendKvChunk c r false endIdx).startSendIdx ≤ endIdx.getD (min r.fillLen r.originLen) ∧
      (sendKvChunk c r false endIdx).originLen = r.originLen ∧
        (sendKvChunk c r false endIdx).fillLen = r.fillLen := by
  have hend : sendEnd c r false endIdx = endIdx.getD (min r.fillLen r.originLen) -
      endIdx.getD (min r.fillLen r.originLen) % c.pageSize := rfl
  rw [sendKvChunk_eq h.dvd hend]
  generalize endIdx.getD (min r.fillLen r.originLen) = e at hle hlt
  have hle' := le_sub_mod c.pageSize_pos h.dvd hle
  have hlt' : e - e % c.pageSize < r.originLen := by omega
  have hdvd' : c.pageSize ∣ e - e % c.pageSize := Nat.dvd_sub_mod e
  have hend' : e - e % c.pageSize ≤ e := Nat.sub_le ..
  generalize e - e % c.pageSize = e' at hle' hlt' hdvd' hend'
  obtain ⟨hpages, hpositions, hcounted⟩ := h.sent.append hle' rfl
  have hmore := kvToPageNum_lt c.pageSize_pos hdvd' hlt'
  refine ⟨⟨⟨hpages, hpositions, hcounted, fun _ x hx => ?_, fun hp => ?_⟩, h.notPrefilled,
    h.announced, hdvd', hlt'⟩, hend', rfl, rfl⟩
  · rcases mem_append.mp hx with hx | hx
    · exact h.sent.unfinished h.notPrefilled x hx
    · split at hx
      · cases hx
      · obtain rfl := mem_singleton.mp hx
        refine ⟨rfl, decide_eq_false ?_⟩
        rw [h.sent.currIdx_add hle', h.announced]
        exact hmore.ne
  · exact absurd hp (by rw [h.notPrefilled]; exact Bool.false_ne_true)

theorem Sending.last (h : Sending c r) (hfill : r.fillLen = r.originLen) (row : ℕ → ℕ) :
    Sent c (sendKvChunk c { r with row := row, prefilled := true } true none) := by
  have hend : sendEnd c { r with row := row, prefilled := true } true none = r.originLen := by
    show min r.fillLen r.originLen = _
    rw [hfill, Nat.min_self]
  have hdvd : c.pageSize ∣ { r with row := row, prefilled := true }.startSendIdx := h.dvd
  have hsent : Sent c { r with row := row } := h.sent.congr rfl rfl rfl rfl rfl fun _ => rfl
  rw [sendKvChunk_eq hdvd hend]
  obtain ⟨hpages, hpositions, hcounted⟩ := hsent.append h.lt.le rfl
  have hsome : pageStarts c.pageSize r.startSendIdx r.originLen ≠ [] :=
    ne_nil_of_mem (mem_pageStarts_self h.dvd h.lt)
  have hnum : r.currIdx + (pageStarts c.pageSize r.startSendIdx r.originLen).length = r.numKvIndices :=
    (h.sent.currIdx_add h.lt.le).trans h.announced.symm
  refine ⟨hpages, hpositions, hcounted, fun hp => Bool.noConfusion hp,
    fun _ => ⟨rfl, hcounted.symm.trans hnum, h.announced,
    r.sends, _, congrArg (r.sends ++ ·) (if_neg hsome), ⟨rfl, Bool.or_true _, decide_eq_true hnum⟩,
    h.sent.unfinished h.notPrefilled⟩⟩

end Send

/-! ## Rounds -/

structure Pages (c : Config) (s : State) : Prop where
  sent : ∀ i, Sent c (s.reqs i)
  fresh : ∀ i ∈ s.bootstrapQueue ++ s.waitingQueue, (s.reqs i).startSendIdx = 0 ∧
    (s.reqs i).prefilled = false
  announced : ∀ i ∈ s.waitingQueue, (s.reqs i).numKvIndices =
    kvToPageNum (s.reqs i).originLen c.pageSize
  running : ∀ i ∈ s.running c, Sending c (s.reqs i) ∧ (s.reqs i).startSendIdx ≤ (s.reqs i).fillLen ∧
    (s.reqs i).fillLen ≤ (s.reqs i).originLen ∧
      (s.chunkedReq = some i ↔ (s.reqs i).fillLen < (s.reqs i).originLen)

section Rounds
variable {c : Config} {rd : Round} {s t : State} {i : ℕ} {batch : List ℕ}

theorem pages_init : Pages c (init c) := by
  refine ⟨fun _ => sent_newReq 0, fun i hi => (nomatch hi), fun i hi => (nomatch hi), fun i hi => ?_⟩
  have hnil : (init c).running c = [] := by
    rw [State.running]
    split <;> rfl
  rw [hnil] at hi
  cases hi

section Inputs
variable (h : Pages c s) (hq : Queues c s)
include h hq

theorem Pages.processInput (input : Input) : Pages c (processInput c s input) := by
  cases input with
  | generate originLen =>
    simp only [Prefill.processInput]
    split
    · exact h
    · have hother : ∀ i ∈ s.present c, Function.update s.reqs s.count (newReq originLen) i =
        s.reqs i := fun i hi =>
        update_of_ne (Nat.ne_of_lt (hq.bounded i hi)) ..
      refine ⟨fun i => ?_, fun i hi => ?_, fun i hi => ?_, fun i hi => ?_⟩
      · show Sent c (Function.update s.reqs s.count (newReq originLen) i)
        by_cases he : i = s.count
        · rw [he, update_self]
          exact sent_newReq originLen
        · rw [update_of_ne he]
          exact h.sent i
      · simp only [mem_append, mem_singleton] at hi
        rcases hi with (hi | rfl) | hi
        · simp only [hother i (Queues.mem_bootstrap hi)]
          exact h.fresh i (mem_append_left _ hi)
        · simp only [update_self]
          exact ⟨rfl, rfl⟩
        · simp only [hother i (Queues.mem_waiting hi)]
          exact h.fresh i (mem_append_right _ hi)
      · simp only [hother i (Queues.mem_waiting hi)]
        exact h.announced i hi
      · have hi : i ∈ s.running c := hi
        simp only [hother i (Queues.mem_running hi)]
        exact h.running i hi
  | abort rids =>
    have hsub : ∀ i ∈ s.waitingQueue.filter (fun i => !rids.contains i), i ∈ s.waitingQueue :=
      fun i hi => (mem_filter.mp hi).1
    refine ⟨h.sent, fun i hi => h.fresh i ?_, fun i hi => h.announced i (hsub i hi), h.running⟩
    rcases mem_append.mp hi with hi | hi
    · exact mem_append_left _ hi
    · exact mem_append_right _ (hsub i hi)

theorem Pages.processInputs (inputs : List Input) :
    Pages c (inputs.foldl (Prefill.processInput c) s) := by
  induction inputs generalizing s with
  | nil => exact h
  | cons input inputs ih => exact ih (h.processInput hq input) (hq.processInput input)

theorem Pages.popBootstrapped (polls : ℕ → Poll) : Pages c (popBootstrapped c s polls) := by
  obtain ⟨taken, hpop⟩ := popBootstrapped_popped (c := c) (s := s) polls
  have htaken := hq.taken_nodup hpop
  have hreqs : ∀ i ∈ taken, (Prefill.popBootstrapped c s polls).reqs i =
      (s.reqs i).initSender c ((Prefill.popBootstrapped c s polls).reqs i).metadataBufferIndex :=
        hpop.takenReqs htaken
  have hothers : ∀ i ∉ taken, (Prefill.popBootstrapped c s polls).reqs i = s.reqs i := hpop.others
  have hfresh : ∀ i ∈ taken, i ∈ s.bootstrapQueue := by
    intro i hi
    obtain ⟨dropped, hperm⟩ := hpop.parts
    exact hperm.mem_iff.mpr (mem_append_left _ (mem_append_right _ hi))
  have hchunk : (Prefill.popBootstrapped c s polls).chunkedReq = s.chunkedReq := hpop.frame.2.2.2.1
  refine ⟨fun i => ?_, fun i hi => ?_, fun i hi => ?_, fun i hi => ?_⟩
  · by_cases hi : i ∈ taken
    · rw [hreqs i hi]
      have hnew := (h.fresh i (mem_append_left _ (hfresh i hi))).2
      exact (h.sent i).congr rfl rfl rfl rfl rfl fun hp =>
        absurd (hnew.symm.trans hp) Bool.false_ne_true
    · rw [hothers i hi]
      exact h.sent i
  · have hmem : i ∈ s.bootstrapQueue ++ s.waitingQueue := by
      rcases hpop.mem hi with hi | hi | hi
      · exact mem_append_left _ hi.2
      · exact mem_append_right _ hi
      · exact mem_append_left _ hi.2
    by_cases hi : i ∈ taken
    · rw [hreqs i hi]
      exact h.fresh i hmem
    · rw [hothers i hi]
      exact h.fresh i hmem
  · by_cases ht : i ∈ taken
    · rw [hreqs i ht]
      rfl
    · have hi : i ∈ s.waitingQueue ++ taken := hpop.waiting ▸ hi
      rw [hothers i ht]
      exact h.announced i ((mem_append.mp hi).resolve_right ht)
  · have hi : i ∈ s.running c := hpop.running (c := c) ▸ hi
    have ht : i ∉ taken := by
      intro ht
      have hall := hq.nodup
      rw [State.present, append_assoc] at hall
      exact disjoint_of_nodup_append hall (mem_append_left _ (hfresh i ht)) (mem_append_left _ hi)
    rw [hothers i ht, hchunk]
    exact h.running i hi

theorem Pages.processPrefillChunk (chunkRow : ℕ → ℕ) :
    Pages c (processPrefillChunk c s chunkRow) ∧ ∀ i, c.overlap = true → s.chunkedReq = some i →
      ((processPrefillChunk c s chunkRow).reqs i).tmpEndIdx =
        ((processPrefillChunk c s chunkRow).reqs i).fillLen := by
  unfold Prefill.processPrefillChunk
  split
  · next batch j hlast hj =>
    obtain ⟨hsending, hle, -, hlt⟩ := h.running j (hq.chunked j hj).1
    have hlt := hlt.mp hj
    -- the request after its chunk, and what is known of it
    have hchunk : ∃ r', (if c.overlap = true then
      { s.reqs j with row := chunkRow, tmpEndIdx := min (s.reqs j).fillLen (s.reqs j).originLen }
        else sendKvChunk c { s.reqs j with row := chunkRow } false none) = r' ∧ Sending c r' ∧
          r'.startSendIdx ≤ r'.fillLen ∧
        r'.fillLen < r'.originLen ∧ (c.overlap = true → r'.tmpEndIdx = r'.fillLen) := by
      refine ⟨_, rfl, ?_⟩
      split
      · exact ⟨hsending.congr rfl rfl rfl rfl rfl rfl, hle, hlt, fun _ => Nat.min_eq_left hlt.le⟩
      · next hover =>
        have hmin : min (s.reqs j).fillLen (s.reqs j).originLen = (s.reqs j).fillLen :=
          Nat.min_eq_left hlt.le
        have hsending' : Sending c { s.reqs j with row := chunkRow } :=
          hsending.congr rfl rfl rfl rfl rfl rfl
        obtain ⟨hsent, hstart, horigin, hfill⟩ :=
          hsending'.chunk none (hle.trans hmin.ge) (hmin.trans_lt hlt)
        refine ⟨hsent, ?_, ?_, fun he => absurd he hover⟩
        · rw [hfill]
          exact hstart.trans hmin.le
        · rw [hfill, horigin]
          exact hlt
    obtain ⟨r', hr', hsending', hle', hlt', htmp⟩ := hchunk
    have hself : (s.upd j fun r => if c.overlap =
      true then { r with row := chunkRow, tmpEndIdx := min r.fillLen r.originLen }
        else sendKvChunk c { r with row := chunkRow } false none).reqs j = r' :=
          (update_self ..).trans hr'
    have hother : ∀ i, i ≠ j → (s.upd j fun r => if c.overlap = true then
        { r with row := chunkRow, tmpEndIdx := min r.fillLen r.originLen }
        else sendKvChunk c { r with row := chunkRow } false none).reqs i = s.reqs i :=
          fun i hne => update_of_ne hne ..
    have hwait : ∀ i ∈ s.bootstrapQueue ++ s.waitingQueue, i ≠ j := by
      rintro i hi rfl
      have hall := hq.nodup
      rw [State.present, append_assoc] at hall
      exact disjoint_of_nodup_append hall hi (mem_append_left _ (hq.chunked i hj).1)
    refine ⟨⟨fun i => ?_, fun i hi => ?_, fun i hi => ?_, fun i hi => ?_⟩, fun i hover hi => ?_⟩
    · by_cases he : i = j
      · rw [he, hself]
        exact hsending'.sent
      · rw [hother i he]
        exact h.sent i
    · rw [hother i (hwait i hi)]
      exact h.fresh i hi
    · rw [hother i (hwait i (mem_append_right _ hi))]
      exact h.announced i hi
    · by_cases he : i = j
      · rw [he, hself]
        exact ⟨hsending', hle', hlt'.le, iff_of_true hj hlt'⟩
      · rw [hother i he]
        exact h.running i hi
    · obtain rfl : j = i := Option.some.inj (hj.symm.trans hi)
      rw [hself]
      exact htmp hover
  · next hnone =>
    refine ⟨h, fun i _ hi => ?_⟩
    obtain ⟨batch, hb⟩ := Option.isSome_iff_exists.mp (hq.chunked i hi).2
    exact absurd hi (hnone batch i hb)

end Inputs

theorem NewBatch.sending (hnew : NewBatch rd s t batch) (h : Pages c s) (hq : Queues c s)
    (hi : i ∈ batch) :
    Sending c (t.reqs i) ∧ (t.reqs i).startSendIdx ≤ (t.reqs i).fillLen ∧
      (t.reqs i).fillLen ≤ (t.reqs i).originLen ∧
      (t.chunkedReq = some i ↔ (t.reqs i).fillLen < (t.reqs i).originLen) := by
  have hreq := hnew.filled i hi
  have hstart : (t.reqs i).startSendIdx = (s.reqs i).startSendIdx := by rw [hreq]
  have horigin : (t.reqs i).originLen = (s.reqs i).originLen := by rw [hreq]
  have hkeep : Sending c (s.reqs i) → Sending c (t.reqs i) := by
    intro hs
    rw [hreq]
    exact hs.congr rfl rfl rfl rfl rfl rfl
  rw [hstart, horigin]
  refine ⟨hkeep ?_, ?_, (hnew.fits i hi).2, hnew.truncated i hi⟩
  · rcases hnew.mem_cases hi with hc | hw
    · exact (h.running i (hq.chunked i hc).1).1
    · obtain ⟨hzero, hp⟩ := h.fresh i (mem_append_right _ hw)
      have hpos : 0 < (s.reqs i).originLen := by
        obtain ⟨hc | hpos, hle⟩ := hnew.fits i hi
        · obtain ⟨-, -, -, hlt⟩ := h.running i (hq.chunked i hc).1
          exact Nat.zero_lt_of_lt (hlt.mp hc)
        · exact hpos.trans_le hle
      exact ⟨h.sent i, hp, h.announced i hw, hzero ▸ Nat.dvd_zero _, hzero ▸ hpos⟩
  · rcases hnew.mem_cases hi with hc | hw
    · exact (h.running i (hq.chunked i hc).1).2.1.trans (hnew.advanced i hc).2
    · rw [(h.fresh i (mem_append_right _ hw)).1]
      exact Nat.zero_le _

section Rounds
variable (h : Pages c s) (hq : Queues c s)
include h hq

theorem Pages.handled (hnew : NewBatch rd s t batch)
    (htmp : ∀ i, c.overlap = true → s.chunkedReq = some i →
      (s.reqs i).tmpEndIdx = (s.reqs i).fillLen) (hi : i ∈ t.due c batch) :
    (t.reqs i).isChunked = 0 ∧ Sent c (handled c rd i (t.reqs i)) ∨
      (t.reqs i).isChunked ≠ 0 ∧ Sending c (handled c rd i (t.reqs i)) ∧
        (handled c rd i (t.reqs i)).startSendIdx ≤ (t.reqs i).fillLen ∧
        (handled c rd i (t.reqs i)).fillLen = (t.reqs i).fillLen ∧
          (handled c rd i (t.reqs i)).originLen = (t.reqs i).originLen := by
  have hlast : (t.reqs i).isChunked = 0 → Sending c (t.reqs i) →
    (t.reqs i).fillLen = (t.reqs i).originLen →
      Sent c (Prefill.handled c rd i (t.reqs i)) := by
    intro hzero hs hfill
    simp only [Prefill.handled, if_pos hzero]
    split
    · exact (hs.last hfill _).congr rfl rfl rfl rfl rfl fun _ => rfl
    · exact hs.last hfill _
  cases hover : c.overlap with
  | false =>
    rw [NewBatch.due_normal hover] at hi
    obtain ⟨hs, hle, hfill, hchunk⟩ := hnew.sending h hq hi
    have hflag := hnew.isChunked_normal hq hover hi
    by_cases hzero : (t.reqs i).isChunked = 0
    · refine .inl ⟨hzero, hlast hzero hs ?_⟩
      have := mt hchunk.mpr (hflag.mp hzero)
      omega
    · refine .inr ⟨hzero, ?_⟩
      have hreq : Prefill.handled c rd i (t.reqs i) =
        { t.reqs i with isChunked := (t.reqs i).isChunked - 1 } := by
        simp only [Prefill.handled, if_neg hzero, hover, if_neg Bool.false_ne_true]
      rw [hreq]
      exact ⟨hs.congr rfl rfl rfl rfl rfl rfl, hle, rfl, rfl⟩
  | true =>
    rw [hnew.due_overlap hover] at hi
    have hflag := hnew.isChunked_overlap hq hover hi
    obtain ⟨hs, hle, hfill, hchunk⟩ := h.running i hi
    by_cases hc : s.chunkedReq = some i
    · have hzero : (t.reqs i).isChunked ≠ 0 := fun hz => hflag.mp hz hc
      obtain ⟨hb, hadvanced⟩ := hnew.advanced i hc
      have hs' := (hnew.sending h hq hb).1
      have hreq := hnew.filled i hb
      have htmp' : (t.reqs i).tmpEndIdx = (s.reqs i).fillLen := by
        rw [hreq]
        exact htmp i hover hc
      have hstart : (t.reqs i).startSendIdx = (s.reqs i).startSendIdx := by rw [hreq]
      have horigin : (t.reqs i).originLen = (s.reqs i).originLen := by rw [hreq]
      refine .inr ⟨hzero, ?_⟩
      simp only [Prefill.handled, if_neg hzero, hover, if_true]
      have hs'' : Sending c { t.reqs i with isChunked := (t.reqs i).isChunked - 1 } :=
        hs'.congr rfl rfl rfl rfl rfl rfl
      have hend : (s.reqs i).startSendIdx ≤ (t.reqs i).tmpEndIdx ∧
        (t.reqs i).tmpEndIdx < (s.reqs i).originLen := by
        rw [htmp']
        exact ⟨hle, hchunk.mp hc⟩
      obtain ⟨hsent, hstart', horigin', hfill'⟩ :=
        hs''.chunk (some (t.reqs i).tmpEndIdx) (hstart.trans_le hend.1)
        (hend.2.trans_eq horigin.symm)
      refine ⟨hsent, hstart'.trans ?_, hfill', horigin'⟩
      exact htmp'.trans_le hadvanced
    · have hnot : i ∉ batch := fun hb => hc (hnew.chunked_of_running hq hb hi)
      have hzero := hflag.mpr hc
      refine .inl ⟨hzero, hlast hzero ?_ ?_⟩
      · rw [hnew.others i hnot]
        exact hs
      · rw [hnew.others i hnot]
        have := mt hchunk.mpr hc
        omega

theorem Pages.afterResults {batch : Option (List ℕ)} (hnew : NewBatch rd s t (batch.getD []))
    (htmp : ∀ i, c.overlap = true → s.chunkedReq = some i → (s.reqs i).tmpEndIdx = (s.reqs i).fillLen) :
    Pages c (afterResults c rd t batch) := by
  rw [hq.afterResults_eq hnew]
  have hkept : ∀ i, i ∉ t.due c (batch.getD []) →
    (if i ∈ t.due c (batch.getD []) then Prefill.handled c rd i (t.reqs i) else t.reqs i) =
      t.reqs i := fun i hi => if_neg hi
  have hdone : ∀ i, i ∈ t.due c (batch.getD []) →
    (if i ∈ t.due c (batch.getD []) then Prefill.handled c rd i (t.reqs i) else t.reqs i) =
      Prefill.handled c rd i (t.reqs i) := fun i hi => if_pos hi
  refine ⟨fun i => ?_, fun i hi => ?_, fun i hi => ?_, fun i hi => ?_⟩
  · show Sent c (if i ∈ t.due c (batch.getD []) then _ else _)
    by_cases hi : i ∈ t.due c (batch.getD [])
    · rw [hdone i hi]
      rcases h.handled hq hnew htmp hi with ⟨-, hs⟩ | ⟨-, hs, -⟩
      · exact hs
      · exact hs.sent
    · rw [hkept i hi]
      by_cases hb : i ∈ batch.getD []
      · exact (hnew.sending h hq hb).1.sent
      · rw [hnew.others i hb]
        exact h.sent i
  · obtain ⟨hs, hbatch, hdue⟩ := hq.untouched hnew hi
    simp only [if_neg hdue, hnew.others i hbatch]
    exact h.fresh i hs
  · obtain ⟨hs, hbatch, hdue⟩ := hq.untouched hnew (mem_append_right _ hi)
    have hw : i ∈ s.waitingQueue := by
      rcases mem_append.mp (hnew.parts.mem_iff.mpr (mem_append_right _ hi)) with hc | hw
      · exact absurd (hnew.advanced i (by simpa using hc)).1 hbatch
      · exact hw
    simp only [if_neg hdue, hnew.others i hbatch]
    exact h.announced i hw
  · have hb : i ∈ batch.getD [] := by
      simp only [State.running] at hi
      split at hi
      · exact hi
      · exact hnew.chunked i (by simpa using hi)
    obtain ⟨hs, hle, hfill, hchunk⟩ := hnew.sending h hq hb
    show Sending c (if i ∈ t.due c (batch.getD []) then _ else _) ∧ _
    by_cases hdue : i ∈ t.due c (batch.getD [])
    · -- its result was that of a chunk
      have hzero : (t.reqs i).isChunked ≠ 0 := by
        cases hover : c.overlap with
        | false =>
          have hc : t.chunkedReq = some i := by simpa [State.running, hover] using hi
          exact fun hz => (hnew.isChunked_normal hq hover hb).mp hz hc
        | true =>
          rw [hnew.due_overlap hover] at hdue
          exact fun hz => (hnew.isChunked_overlap hq hover hdue).mp hz
            (hnew.chunked_of_running hq hb hdue)
      rcases h.handled hq hnew htmp hdue with ⟨hz, -⟩ | ⟨-, hs', hle', hfill', horigin'⟩
      · exact absurd hz hzero
      · simp only [hdone i hdue, hfill', horigin']
        exact ⟨hs', hle', hfill, hchunk⟩
    · simp only [hkept i hdue]
      exact ⟨hs, hle, hfill, hchunk⟩

theorem Pages.processInflight {polls : ℕ → Poll} (hs : processInflight s polls = some t) :
    Pages c t := by
  have hnodup : s.inflightQueue.Nodup := by
    have hall := hq.nodup
    rw [State.present] at hall
    exact (nodup_append.mp hall).2.1
  obtain rfl := processInflight_eq_some hnodup hs
  have hout : ∀ i ∈ s.bootstrapQueue ++ s.waitingQueue ++ s.running c,
    i ∉ s.inflightQueue.filter fun i => (polls i).isDone := by
    intro i hi hmem
    have hall := hq.nodup
    rw [State.present] at hall
    exact disjoint_of_nodup_append hall hi (mem_filter.mp hmem).1
  refine ⟨fun i => ?_, fun i hi => ?_, fun i hi => ?_, fun i hi => ?_⟩
  · show Sent c (if i ∈ s.inflightQueue.filter (fun i => (polls i).isDone) then (s.reqs i).released
      else s.reqs i)
    split
    · exact (h.sent i).congr rfl rfl rfl rfl rfl fun _ => rfl
    · exact h.sent i
  · simp only [if_neg (hout i (mem_append_left _ hi))]
    exact h.fresh i hi
  · simp only [if_neg (hout i (mem_append_left _ (mem_append_right _ hi)))]
    exact h.announced i hi
  · have hi : i ∈ s.running c := hi
    simp only [if_neg (hout i (mem_append_right _ hi))]
    exact h.running i hi

theorem Pages.beforeBatch : Pages c (beforeBatch c s rd) ∧ ∀ i, c.overlap = true →
    (beforeBatch c s rd).chunkedReq = some i →
      ((beforeBatch c s rd).reqs i).tmpEndIdx = ((beforeBatch c s rd).reqs i).fillLen := by
  have hq₁ := (hq.processInputs rd.inputs).popBootstrapped rd.bootstrapPolls
  have hpages₁ := (h.processInputs hq rd.inputs).popBootstrapped
    (hq.processInputs rd.inputs) rd.bootstrapPolls
  obtain ⟨hpages, htmp⟩ := hpages₁.processPrefillChunk hq₁ rd.chunkRow
  have hframe := processPrefillChunk_frame (c := c)
    (s := Prefill.popBootstrapped c (rd.inputs.foldl (Prefill.processInput c) s) rd.bootstrapPolls)
      rd.chunkRow
  exact ⟨hpages, fun i hover hi => htmp i hover ((congrArg State.chunkedReq hframe).symm.trans hi)⟩

theorem Pages.step (hs : step c s rd = some t) : Pages c t := by
  obtain ⟨u, batch, hnew, hs⟩ := step_eq_some hq hs
  obtain ⟨hpages, htmp⟩ := h.beforeBatch hq
  exact (hpages.afterResults hq.beforeBatch hnew htmp).processInflight
    (hq.beforeBatch.afterResults hnew) hs

end Rounds

/-- In every run of the prefill server, with every division of the prompts into chunks, the sender
of a request gets every page of the prompt once and in order, the number of pages that was
announced, and the metadata with the last of them. -/
theorem pages_sent_once (c : Config) (rounds : List Round) (s : State)
    (hs : run (Prefill.step c) (init c) rounds = some s) (i : ℕ) :
    Sent c (s.reqs i) := by
  have hinv := run_invariant (I := fun s => Queues c s ∧ Pages c s)
    (fun s rd t h hs => ⟨h.1.step hs, h.2.step h.1 hs⟩) ⟨queues_init, pages_init⟩ hs
  exact hinv.2.sent i

end Rounds

/-- A round in which nothing comes from outside and the transfers go on. -/
def quietRound : Round :=
  { inputs := []
    bootstrapPolls := fun _ => .waitingForInput
    chunkRow := fun pos => 10 + pos
    chunkEnd := 0
    admitted := []
    newRows := fun _ pos => 10 + pos
    cachedRows := fun _ pos => 20 + pos
    grammarFails := []
    inflightPolls := fun _ => .transferring }

/-- A prompt of five tokens in two chunks, of which the first ends in the middle of a page; the
cache gives the request another row with the last one. -/
def twoChunks : List Round :=
  [{ quietRound with inputs := [.generate 5], admitted := [⟨0, 0, 3⟩] },
    { quietRound with chunkEnd := 5 }, quietRound]

def overlapConfig : Config := ⟨2, true, 1, 8, Nat.two_pos⟩

theorem pages_sent_once_twoChunks : ∃ s, run (step overlapConfig)
    (init overlapConfig) twoChunks = some s ∧
    (s.reqs 0).prefilled = true ∧ (s.reqs 0).sends.map Send.pages = [[5], [11, 12]] ∧
      Sent overlapConfig (s.reqs 0) := by
  have hrun : (run (step overlapConfig) (init overlapConfig) twoChunks).map
      (fun s => ((s.reqs 0).prefilled, (s.reqs 0).sends.map Send.pages)) =
        some (true, [[5], [11, 12]]) := by
    decide +kernel
  obtain ⟨s, hs, hvals⟩ := Option.map_eq_some_iff.mp hrun
  obtain ⟨hprefilled, hpages⟩ := Prod.mk.inj hvals
  exact ⟨s, hs, hprefilled, hpages, pages_sent_once overlapConfig twoChunks s hs 0⟩

end Sglang.Disaggregation.Prefill

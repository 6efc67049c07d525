import Sglang.Lib.Numbering
import Sglang.MemCache.RadixRows

/-! # Requests share slots only with their prefix

Two running requests may hold the same page of the pool. The page then stands at the same place in
both, and the requests agree on all tokens up to its end: no request reads the KV of other
tokens. -/
set_option autoImplicit false

namespace Sglang.RadixServe
open Sglang.Lib Forest PrefixMap RadixCache Option
open List hiding nil cons
variable {c : Config} {s : RadixCache} {p : ReqToTokenPool} {r : Req} {i x : ℕ}

/-- The slots of a request's KV: `prefix_indices` on the cached prefix, its own slots beyond it. -/
def Req.held (c : Config) (p : ReqToTokenPool) (r : Req) : List Slot :=
  r.prefixIndices.take (r.cachedLen c) ++ r.tail c p

def entryPage (ps : ℕ) (e : List Token × List Slot) : ℕ := e.2.getD 0 0 / ps

theorem nodePages_page {ps : ℕ} (hps : 0 < ps) (base key : List Token) {v : List Slot}
    (hlen : v.length = key.length) (hdvd : ps ∣ key.length) :
    (nodePages ps base key v).map (entryPage ps) = pagesOf ps v := by
  rw [nodePages, pagesOf, pageCount_of_dvd hps (hlen ▸ hdvd), hlen, List.map_map]
  apply map_congr_left
  intro j _
  simp [entryPage, hps]

theorem entries_page {ps : ℕ} (hps : 0 < ps) : ∀ (f : Forest Token (List Slot)) (base : List Token),
    (∀ nd ∈ f.nodes, nd.val.length = nd.key.length ∧ ps ∣ nd.key.length) →
      (f.entries ps id base).map (entryPage ps) = f.nodes.flatMap fun nd => pagesOf ps nd.val
  | nil, _, _ => rfl
  | cons nd kids rest, base, h => by
    obtain ⟨hlen, hdvd⟩ := h nd (by simp)
    rw [entries, map_append, map_append, id, nodePages_page hps base nd.key hlen hdvd,
      entries_page hps kids _ fun x hx => h x (by simp [hx]),
      entries_page hps rest _ fun x hx => h x (by simp [hx]), nodes_cons, flatMap_cons, flatMap_append]

theorem Paged.div_eq {ps : ℕ} (hps : 0 < ps) {v : List ℕ} (h : Paged ps v) (hi : v[i]? = some x) :
    x / ps = (pagesOf ps v).getD (i / ps) 0 := by
  rw [PagedBy.getElem h hi, block_div (Nat.mod_lt i hps)]

theorem page_of_mem {ps : ℕ} (hps : 0 < ps) {e : List Token × List Slot} (hx : x ∈ e.2) :
    ∀ {f : Forest Token (List Slot)} {base : List Token}, (∀ nd ∈ f.nodes, Paged ps nd.val) →
      e ∈ f.entries ps id base → x / ps = entryPage ps e
  | cons nd kids rest, base, h, he => by
    simp only [entries, mem_append] at he
    rcases he with he | he | he
    · obtain ⟨j, _, rfl⟩ := List.mem_map.mp he
      obtain ⟨k, hk⟩ := mem_iff_getElem?.mp hx
      simp only [id, getElem?_take, getElem?_drop, ite_none_right_eq_some] at hk
      obtain ⟨hlt, hk⟩ := hk
      have hpos := (List.getElem?_eq_some_iff.mp hk).1
      have hpage := Paged.div_eq hps (h nd (by simp)) (getElem?_eq_getElem (i := j * ps) (by omega))
      rw [Nat.mul_div_cancel j hps] at hpage
      rw [Paged.div_eq hps (h nd (by simp)) hk, block_div hlt, ← hpage]
      simp [entryPage, hps, getElem?_eq_getElem (i := j * ps) (l := nd.val) (by omega)]
    · exact page_of_mem hps hx (fun y hy => h y (by simp [hy])) he
    · exact page_of_mem hps hx (fun y hy => h y (by simp [hy])) he

theorem ReqInv.held_cases (h : ReqInv c s p r) (hx : (r.held c p)[i]? = some x) :
    (alignDown c.pageSize i + c.pageSize ≤ r.ids.length ∧
      ∃ v, pages c s (r.ids.take (alignDown c.pageSize i + c.pageSize)) = some v ∧ x ∈ v) ∨
      x ∈ r.tail c p := by
  have hle := cachedLen_le c r
  rcases Nat.lt_or_ge i (r.cachedLen c) with hi | hi
  · have hps := c.pageSize_pos
    have hdown := alignDown_le c.pageSize i
    have hup := lt_alignDown_add hps i
    rw [Req.held, getElem?_append_left (by rw [length_take]; omega), getElem?_take_of_lt hi] at hx
    have hend := add_le_of_dvd_lt (dvd_alignDown c.pageSize i) (dvd_cachedLen c r) (by omega)
    refine .inl ⟨by have := h.lt; omega, _, h.agree _ (dvd_alignDown _ i) hend, mem_iff_getElem?.mpr
      ⟨i - alignDown c.pageSize i, ?_⟩⟩
    rw [getElem?_take_of_lt (by omega), getElem?_drop, Nat.add_sub_cancel' hdown, hx]
  · rw [Req.held, getElem?_append_right (by rw [length_take]; omega)] at hx
    exact .inr (mem_of_getElem? hx)

/-- A page that two running requests hold stands at the same place in both, and the requests agree
on all tokens up to its end. -/
theorem shared_page_agrees (c : Config) (numPages size : ℕ) (needSort : Bool) (ops : List Op)
    (σ : Serve) (hrun : run (step c) (init c numPages size needSort) ops = some σ) (k k' : ℕ)
    (r r' : Req)
    (hr : σ.reqs[k]? = some r) (hr' : σ.reqs[k']? = some r') (hne : k ≠ k') (i i' x x' : ℕ)
    (hx : (r.held c σ.pool)[i]? = some x) (hx' : (r'.held c σ.pool)[i']? = some x')
    (hpage : x / c.pageSize = x' / c.pageSize) :
    alignDown c.pageSize i = alignDown c.pageSize i' ∧
      r.ids.take (alignDown c.pageSize i + c.pageSize) =
        r'.ids.take (alignDown c.pageSize i + c.pageSize) := by
  have hi := inv_run hrun
  have hri := hi.reqs r (mem_of_getElem? hr)
  have hri' := hi.reqs r' (mem_of_getElem? hr')
  have hnodup := hi.nodup.of_append_right
  have hdisj := disjoint_of_nodup_append hnodup
  have htail : ∀ {q : Req} {y : ℕ}, q ∈ σ.reqs → y ∈ q.tail c σ.pool →
      y / c.pageSize ∈ pagesOf c.pageSize (q.tail c σ.pool) :=
    fun hq hy => (hi.reqs _ hq).paged.div_mem c.pageSize_pos hy
  rcases hri.held_cases hx with ⟨hlt, v, hv, hxv⟩ | hxt
  · rcases hri'.held_cases hx' with ⟨hlt', v', hv', hxv'⟩ | hxt'
    · -- two entries on one page are the same entry
      have he := hi.shape.pages_eq_some.mp hv
      have he' := hi.shape.pages_eq_some.mp hv'
      have hinj := inj_on_of_nodup_map (f := entryPage c.pageSize) (by
        rw [entries_page c.pageSize_pos _ [] fun nd hnd =>
          ⟨hi.shape.vals nd hnd, (hi.shape.wf.aligned nd hnd).2⟩]
        exact hnodup.of_append_left) he he'
        (by rw [← page_of_mem c.pageSize_pos hxv hi.vals he,
          ← page_of_mem c.pageSize_pos hxv' hi.vals he', hpage])
      have hids := congrArg Prod.fst hinj
      have hlen := congrArg List.length hids
      simp only [length_take] at hlen
      have hdown : alignDown c.pageSize i = alignDown c.pageSize i' := by omega
      exact ⟨hdown, hids.trans (by rw [hdown])⟩
    · exact absurd (hpage ▸ pages_mem_treePages hi.shape hi.vals hv hxv) fun ht =>
        hdisj ht (mem_flatMap.mpr ⟨r', mem_of_getElem? hr', htail (mem_of_getElem? hr') hxt'⟩)
  · rcases hri'.held_cases hx' with ⟨hlt', v', hv', hxv'⟩ | hxt'
    · exact absurd (pages_mem_treePages hi.shape hi.vals hv' hxv') fun ht =>
        hdisj (hpage ▸ ht) (mem_flatMap.mpr ⟨r, mem_of_getElem? hr, htail (mem_of_getElem? hr) hxt⟩)
    · -- the pages of two tails are disjoint
      have hpw := pairwise_iff_getElem.mp (nodup_flatMap.mp hnodup.of_append_right).2
      have hm := htail (mem_of_getElem? hr) hxt
      have hm' := hpage ▸ htail (mem_of_getElem? hr') hxt'
      obtain ⟨hk, rfl⟩ := List.getElem?_eq_some_iff.mp hr
      obtain ⟨hk', rfl⟩ := List.getElem?_eq_some_iff.mp hr'
      rcases Nat.lt_or_gt_of_ne hne with hlt | hlt
      · exact (hpw k k' hk hk' hlt hm hm').elim
      · exact (hpw k' k hk' hk hlt hm' hm).elim

/-- The second request found the page of its first two tokens in the tree, put there by the
first. -/
theorem shared_page_sharedRun :
    ∃ σ r r', run (step pairConfig) (init pairConfig 8 4 false) (sharedRun.take 5) = some σ ∧
      σ.reqs[0]? = some r ∧ σ.reqs[1]? = some r' ∧ r.ids.take 2 = r'.ids.take 2 := by
  have hrun : ((run (step pairConfig) (init pairConfig 8 4 false) (sharedRun.take 5)).bind fun σ =>
      σ.reqs[0]?.bind fun r => σ.reqs[1]?.map fun r' =>
        ((r.held pairConfig σ.pool)[1]?, (r'.held pairConfig σ.pool)[0]?)) = some (some 3, some 2) := by
    decide +kernel
  obtain ⟨σ, hσ, hrun⟩ := bind_eq_some_iff.mp hrun
  obtain ⟨r, hr, hrun⟩ := bind_eq_some_iff.mp hrun
  obtain ⟨r', hr', he⟩ := map_eq_some_iff.mp hrun
  obtain ⟨hx, hx'⟩ := Prod.mk.injEq .. ▸ he
  exact ⟨σ, r, r', hσ, hr, hr', (shared_page_agrees pairConfig 8 4 false _ σ hσ 0 1 r r' hr hr'
    Nat.zero_ne_one 1 0 3 2 hx hx' rfl).2⟩

end Sglang.RadixServe

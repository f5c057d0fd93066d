import BitcoinAdaptor.BlockchainState.Invariant

/-!
# What `add_headers` returns and stores

Processing a list of headers in order from a state, split it at the first header that
`add_header` rejects: `pre` before it, all accepted in turn, and `rest` from it on (empty if no
header is rejected). `add_headers` returns the error of the first header of `rest`, and as
added nodes those of the headers of `pre` whose hash was neither cached nor the hash of an
earlier header of `pre`, in order; afterwards the cache holds the old nodes and one node for
each hash of `pre`, and nothing else (`BlockchainState.addHeadersLoop_spec`,
`BlockchainState.addHeaders_spec`). A list that was added without error adds nothing when
added again and changes nothing.

A header after the rejected one can still be cached afterwards, when a header of `pre` has its
hash (`BlockchainState.addHeaders_later_duplicate_cached`).

## Main definitions

* `BlockchainState.addHeaderAll`: `add_header` applied to each header of a list in turn.
* `BlockchainState.AcceptedInTurn`: `add_header` accepts each header of a list in turn.
* `BlockchainState.freshHeaders`: the headers of a list with a hash not cached before.

## Main results

* `BlockchainState.addHeadersLoop_spec`, `BlockchainState.addHeaders_spec`.
-/

namespace BitcoinAdaptor

namespace BlockchainState

variable {Transaction : Type} (E : Env Transaction)

/-- `add_header` applied to each header of a list in turn. -/
def addHeaderAll (s : BlockchainState Transaction) (headers : List BlockHeader) :
    BlockchainState Transaction :=
  headers.foldl (fun s header => (addHeader E s header).2) s

/-- `add_header` accepts each header of the list, applied in turn from `s`. -/
def AcceptedInTurn : BlockchainState Transaction → List BlockHeader → Prop
  | _, [] => True
  | s, header :: headers =>
    (∃ r, (addHeader E s header).1 = .ok r) ∧ AcceptedInTurn (addHeader E s header).2 headers

/-- The headers of a list whose hash is neither `cached` nor the hash of an earlier header of
the list, in order. -/
def freshHeaders (cached : BlockHash → Bool) : List BlockHeader → List BlockHeader
  | [] => []
  | header :: headers =>
    if cached (E.blockHash header) then freshHeaders cached headers
    else header :: freshHeaders (fun h => cached h || h == E.blockHash header) headers

variable {E}

/-- After an accepted header the known hashes are the old ones and the header's. -/
theorem isBlockHashKnown_addHeader {s : BlockchainState Transaction} {header : BlockHeader}
    {r : AddHeaderResult} (h : (addHeader E s header).1 = .ok r) (k : BlockHash) :
    (addHeader E s header).2.isBlockHashKnown k = (s.isBlockHashKnown k || k == E.blockHash header) := by
  rcases @addHeader_cases _ E s header with ⟨n, hn, he⟩ | ⟨_, he⟩ | ⟨p, c', -, hp, hi, he⟩ <;>
    rw [he] at h ⊢
  · by_cases hk : k = E.blockHash header
    · subst hk
      simp [isBlockHashKnown_eq, hn]
    · simp [hk]
  · cases h
  · exact HeaderCache.contains_insert hi k

/-- The known hashes after a list accepted in turn are the old ones and those of the list. -/
theorem isBlockHashKnown_addHeaderAll {s : BlockchainState Transaction} {pre : List BlockHeader}
    (h : AcceptedInTurn E s pre) (k : BlockHash) :
    (addHeaderAll E s pre).isBlockHashKnown k ↔ s.isBlockHashKnown k ∨ k ∈ pre.map E.blockHash := by
  induction pre generalizing s with
  | nil => simp [addHeaderAll]
  | cons header pre ih =>
    obtain ⟨⟨r, hr⟩, hpre⟩ := h
    have := ih hpre
    simp only [addHeaderAll, List.foldl_cons] at this ⊢
    rw [this, isBlockHashKnown_addHeader hr]
    simp [or_assoc, or_comm (a := k = _)]

/-- The loop of `add_headers` splits its list at the first rejected header: the headers before
it are accepted in turn, the rejected one's error is returned, the state is the one after the
accepted headers, and the added nodes are those of the fresh headers among them. -/
theorem addHeadersLoop_spec (s : BlockchainState Transaction) (headers : List BlockHeader) :
    ∃ pre rest, headers = pre ++ rest ∧ AcceptedInTurn E s pre ∧
      (match rest with
        | [] => (addHeadersLoop E s headers).2.1 = none
        | header :: _ => ∃ e, (addHeader E (addHeaderAll E s pre) header).1 = .error e ∧
            (addHeadersLoop E s headers).2.1 = some e) ∧
      (addHeadersLoop E s headers).2.2 = addHeaderAll E s pre ∧
      (addHeadersLoop E s headers).1.map (·.header) = freshHeaders E s.isBlockHashKnown pre := by
  induction headers generalizing s with
  | nil => exact ⟨[], [], rfl, trivial, rfl, rfl, rfl⟩
  | cons header headers ih =>
    rcases @addHeader_cases _ E s header with ⟨n, hn, he⟩ | ⟨e, he⟩ | ⟨p, c', hnone, hp, hi, he⟩
    · obtain ⟨pre, rest, rfl, hacc, herr, hst, hfr⟩ := ih s
      have hk : s.isBlockHashKnown (E.blockHash header) = true := by
        simp [isBlockHashKnown_eq, hn]
      refine ⟨header :: pre, rest, rfl, ⟨⟨_, by rw [he]⟩, by rwa [he]⟩, ?_, ?_, ?_⟩ <;>
        simp only [addHeadersLoop, he, addHeaderAll, List.foldl_cons, freshHeaders, hk, if_true]
      exacts [herr, hst, hfr]
    · exact ⟨[], header :: headers, rfl, trivial, ⟨e, by simp [addHeaderAll, addHeadersLoop, he]⟩,
        by simp [addHeadersLoop, he, addHeaderAll], by simp [addHeadersLoop, he, freshHeaders]⟩
    · have hok : (addHeader E s header).1 =
          .ok (.headerAdded (HeaderCache.childNode E.toBitcoin p header)) := by
        rw [he]
      have hknown := isBlockHashKnown_addHeader hok
      rw [he] at hknown
      obtain ⟨pre, rest, rfl, hacc, herr, hst, hfr⟩ := ih _
      have hk : s.isBlockHashKnown (E.blockHash header) = false := by
        simp [isBlockHashKnown_eq, hnone]
      refine ⟨header :: pre, rest, rfl, ⟨⟨_, hok⟩, by rwa [he]⟩, ?_, ?_, ?_⟩ <;>
        simp only [addHeadersLoop, he, addHeaderAll, List.foldl_cons, freshHeaders, hk]
      · exact herr
      · exact hst
      · simp only [List.map_cons, HeaderCache.childNode, Bool.false_eq_true, if_false]
        rw [hfr, funext hknown]

/-- The loop keeps every cached node, with its header, height and work. -/
theorem getCachedHeader_addHeadersLoop {s : BlockchainState Transaction}
    (headers : List BlockHeader) {k : BlockHash} {n : HeaderNode}
    (hk : s.getCachedHeader k = some n) :
    ∃ n', (addHeadersLoop E s headers).2.2.getCachedHeader k = some n' ∧ n'.header = n.header ∧
      n'.height = n.height ∧ n'.work = n.work :=
  addHeadersLoop_induction (fun s => ∃ n', s.getCachedHeader k = some n' ∧ n'.header = n.header ∧
      n'.height = n.height ∧ n'.work = n.work)
    (fun _ header ⟨_, hn', h1, h2, h3⟩ =>
      let ⟨n'', hn'', h1', h2', h3'⟩ := getCachedHeader_addHeader header hn'
      ⟨n'', hn'', h1'.trans h1, h2'.trans h2, h3'.trans h3⟩)
    s headers ⟨n, hk, rfl, rfl, rfl⟩

/-- Each node the loop returns as added is the cached node of its header at the end. -/
theorem getCachedHeader_of_mem_addHeadersLoop (s : BlockchainState Transaction)
    (headers : List BlockHeader) {n : HeaderNode} (hn : n ∈ (addHeadersLoop E s headers).1) :
    ∃ n', (addHeadersLoop E s headers).2.2.getCachedHeader (E.blockHash n.header) = some n' ∧
      n'.header = n.header ∧ n'.height = n.height ∧ n'.work = n.work := by
  induction headers generalizing s with
  | nil => simp [addHeadersLoop] at hn
  | cons header headers ih =>
    rcases @addHeader_cases _ E s header with ⟨_, -, he⟩ | ⟨_, he⟩ | ⟨p, c', -, hp, hi, he⟩ <;>
      simp only [addHeadersLoop, he] at hn ⊢
    · exact ih s hn
    · simp at hn
    · rcases List.mem_cons.1 hn with rfl | hn
      · exact getCachedHeader_addHeadersLoop headers (HeaderCache.get_insert_self hp hi)
      · exact ih _ hn

/-- A rejected header was not cached. -/
theorem getCachedHeader_of_addHeader_error {s : BlockchainState Transaction}
    {header : BlockHeader} {e : AddHeaderError} (h : (addHeader E s header).1 = .error e) :
    s.getCachedHeader (E.blockHash header) = none := by
  cases hc : s.getCachedHeader (E.blockHash header) with
  | none => rfl
  | some n => simp [addHeader_of_getCachedHeader hc] at h

/-- The loop over headers that are all cached does nothing. -/
theorem addHeadersLoop_of_known {s : BlockchainState Transaction} {headers : List BlockHeader}
    (h : ∀ header ∈ headers, s.isBlockHashKnown (E.blockHash header)) :
    addHeadersLoop E s headers = ([], none, s) := by
  induction headers with
  | nil => rfl
  | cons header headers ih =>
    obtain ⟨n, hn⟩ := Option.isSome_iff_exists.1 (h header (List.mem_cons_self _ _))
    rw [addHeadersLoop, addHeader_of_getCachedHeader hn]
    exact ih fun x hx => h x (List.mem_cons_of_mem _ hx)

/-- `add_headers` from any state, split at the first header that `add_header` rejects: it returns
that header's error, or none; as added nodes, in order and once each, those of the headers before
it whose hash was not yet cached, and the cache then holds them; every node cached before stays,
with its header, height and work; the cached hashes are the old ones and those of the headers
before the rejected one, so the rejected header and each later header that is neither cached nor
among them are absent; and a list added without error adds nothing when added again and leaves the
whole state as it is. -/
theorem addHeaders_spec (s : BlockchainState Transaction) (headers : List BlockHeader) :
    let r := addHeaders E s headers
    ∃ pre rest, headers = pre ++ rest ∧ AcceptedInTurn E s pre ∧
      (match rest with
        | [] => r.1.2 = none
        | header :: _ => ∃ e, (addHeader E (addHeaderAll E s pre) header).1 = .error e ∧
            r.1.2 = some e ∧ r.2.getCachedHeader (E.blockHash header) = none) ∧
      r.1.1.map (·.header) = freshHeaders E s.isBlockHashKnown pre ∧
      (∀ n ∈ r.1.1, ∃ n', r.2.getCachedHeader (E.blockHash n.header) = some n' ∧
        n'.header = n.header ∧ n'.height = n.height ∧ n'.work = n.work) ∧
      (∀ k n, s.getCachedHeader k = some n → ∃ n', r.2.getCachedHeader k = some n' ∧
        n'.header = n.header ∧ n'.height = n.height ∧ n'.work = n.work) ∧
      (∀ k, r.2.isBlockHashKnown k ↔ s.isBlockHashKnown k ∨ k ∈ pre.map E.blockHash) ∧
      (∀ header ∈ rest, ¬ s.isBlockHashKnown (E.blockHash header) →
        E.blockHash header ∉ pre.map E.blockHash → r.2.getCachedHeader (E.blockHash header) = none) ∧
      (r.1.2 = none → addHeaders E r.2 headers = (([], none), r.2)) := by
  intro r
  obtain ⟨pre, rest, hsplit, hacc, herr, hst, hfr⟩ := addHeadersLoop_spec s headers
  have hknown (k : BlockHash) :
      r.2.isBlockHashKnown k ↔ s.isBlockHashKnown k ∨ k ∈ pre.map E.blockHash := by
    show (addHeadersLoop E s headers).2.2.isBlockHashKnown k = true ↔ _
    rw [hst]
    exact isBlockHashKnown_addHeaderAll hacc k
  refine ⟨pre, rest, hsplit, hacc, ?_, hfr, fun _ hn => getCachedHeader_of_mem_addHeadersLoop s headers hn,
    fun k n hk => getCachedHeader_addHeadersLoop headers hk, hknown,
    fun header _ hs hp => ?_, fun hnone => ?_⟩
  · cases rest with
    | nil => exact herr
    | cons header _ =>
      obtain ⟨e, he, hr⟩ := herr
      refine ⟨e, he, hr, ?_⟩
      show (addHeadersLoop E s headers).2.2.getCachedHeader _ = none
      rw [hst]
      exact getCachedHeader_of_addHeader_error he
  · rw [← Option.not_isSome_iff_eq_none, ← isBlockHashKnown_eq]
    exact (hknown _).not.2 (not_or.2 ⟨hs, hp⟩)
  · have hrest : rest = [] := by
      cases rest with
      | nil => rfl
      | cons _ _ =>
        obtain ⟨e, _, hr⟩ := herr
        exact nomatch hr.symm.trans hnone
    subst hrest
    rw [List.append_nil] at hsplit
    subst hsplit
    have hall : ∀ header ∈ headers, r.2.isBlockHashKnown (E.blockHash header) :=
      fun header h => (hknown _).2 (Or.inr (List.mem_map_of_mem _ h))
    rw [addHeaders, addHeadersLoop_of_known hall]
    simp only [r, addHeaders, E.sortTips.sort_of_sorted _ (E.sortTips.sorted _)]

/-- Only the headers before the rejected one count: after `add_headers [a, x, a]` from the new
state of `Env.sample`, with `a = sample 1 1` a child of genesis and `x = sample 7 9` a header
whose parent is not cached, `x` is rejected, and yet the third header, `a` again, is cached
although it was not cached before. -/
theorem addHeaders_later_duplicate_cached :
    ∃ s, run Env.sample .regtest [] = s ∧
      s.getCachedHeader (Env.sample.blockHash (.sample 1 1)) = none ∧
      (addHeaders Env.sample s [.sample 1 1, .sample 7 9, .sample 1 1]).1.2 =
        some (.prevHeaderNotCached (BitVec.ofNat 256 7)) ∧
      (addHeaders Env.sample s [.sample 1 1, .sample 7 9, .sample 1 1]).2.getCachedHeader
        (Env.sample.blockHash (.sample 1 1)) ≠ none :=
  ⟨_, rfl, by decide⟩

end BlockchainState

end BitcoinAdaptor

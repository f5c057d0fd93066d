import BitcoinAdaptor.BlockchainState.Basic

/-!
# The tip update of `add_header`

`add_header` looks for the tip whose hash is the new header's `prev_blockhash` with
`Iterator::position` and overwrites it, or appends the new tip when there is none. When the
hashes of the tips are distinct this replaces exactly the parent's tip
(`BlockchainState.updateTips_eq`): the hashes of the new tips are the old ones without the
parent's, and the new header's (`BlockchainState.mem_map_updateTips`).

## Main results

* `List.set_findIdx?_eq_map`: overwriting the element found by `findIdx?` in a list with
  distinct keys.
* `BlockchainState.updateTips_eq`, `BlockchainState.mem_map_updateTips`,
  `BlockchainState.nodup_map_updateTips`, `BlockchainState.mem_updateTips`.
-/

namespace BitcoinAdaptor

/-- In a list with distinct keys, overwriting the element that `findIdx?` finds for a key
overwrites every element with that key. -/
theorem List.set_findIdx?_eq_map {α β : Type} [DecidableEq β] (key : α → β) (k : β) (x : α) :
    ∀ (l : List α) {i : Nat}, l.findIdx? (fun a => key a == k) = some i → (l.map key).Nodup →
      l.set i x = l.map fun a => if key a = k then x else a
  | [], _, h, _ => by simp at h
  | a :: l, i, h, hnd => by
    rw [List.map_cons, List.nodup_cons] at hnd
    by_cases ha : key a = k
    · simp only [List.findIdx?_cons, ha, beq_self_eq_true, if_true, Option.some.injEq] at h
      subst h
      have hl : ∀ b ∈ l, key b ≠ k := fun b hb hbk => hnd.1 (ha ▸ hbk ▸ List.mem_map_of_mem key hb)
      simp only [List.set_cons_zero, List.map_cons, ha, if_true, List.cons.injEq, true_and]
      exact (List.map_congr_left fun b hb => if_neg (hl b hb)).trans (List.map_id l) |>.symm
    · simp only [List.findIdx?_cons, beq_iff_eq, ha, if_false, List.findIdx?_succ,
        Option.map_eq_some'] at h
      obtain ⟨j, hj, rfl⟩ := h
      simp only [List.set_cons_succ, List.map_cons, ha, if_false,
        List.set_findIdx?_eq_map key k x l hj hnd.2]

namespace BlockchainState

variable {Transaction : Type} (E : Env Transaction)

section UpdateTips

variable {E} {tips : List Tip} {prevHash : BlockHash} {tip : Tip}
  (hnd : (tips.map fun t => E.blockHash t.header).Nodup)

include hnd

/-- With distinct tip hashes, `updateTips` overwrites the parent's tip if there is one and
appends otherwise. -/
theorem updateTips_eq :
    updateTips E tips prevHash tip =
      if prevHash ∈ tips.map (fun t => E.blockHash t.header) then
        tips.map fun t => if E.blockHash t.header = prevHash then tip else t
      else tips ++ [tip] := by
  unfold updateTips
  cases hi : tips.findIdx? fun t => E.blockHash t.header == prevHash with
  | none =>
    rw [List.findIdx?_eq_none_iff] at hi
    rw [if_neg (by simpa using hi)]
  | some i =>
    obtain ⟨hlt, hp, -⟩ := List.findIdx?_eq_some_iff_getElem.1 hi
    rw [if_pos (List.mem_map.2 ⟨_, List.getElem_mem hlt, by simpa using hp⟩)]
    exact List.set_findIdx?_eq_map (fun t => E.blockHash t.header) prevHash tip tips hi
      (by simpa [Function.comp_def] using hnd)

/-- The hashes of the updated tips: the new one, and the old ones but the parent's. -/
theorem mem_map_updateTips {h : BlockHash} :
    h ∈ (updateTips E tips prevHash tip).map (fun t => E.blockHash t.header) ↔
      h = E.blockHash tip.header ∨
        (h ∈ tips.map (fun t => E.blockHash t.header) ∧ h ≠ prevHash) := by
  rw [updateTips_eq hnd]
  split_ifs with hp
  · simp only [List.map_map, List.mem_map, Function.comp_def]
    obtain ⟨t₀, ht₀, hh₀⟩ := List.mem_map.1 hp
    constructor
    · rintro ⟨t, ht, rfl⟩
      split_ifs with htp
      · exact .inl rfl
      · exact .inr ⟨⟨t, ht, rfl⟩, htp⟩
    · rintro (rfl | ⟨⟨t, ht, rfl⟩, htp⟩)
      · exact ⟨t₀, ht₀, by rw [if_pos hh₀]⟩
      · exact ⟨t, ht, by rw [if_neg htp]⟩
  · simp only [List.map_append, List.map_cons, List.map_nil, List.mem_append,
      List.mem_singleton]
    constructor
    · rintro (hm | rfl)
      · exact .inr ⟨hm, fun he => hp (he ▸ hm)⟩
      · exact .inl rfl
    · rintro (rfl | ⟨hm, -⟩)
      · exact .inr rfl
      · exact .inl hm

/-- A new tip whose hash is fresh keeps the tip hashes distinct. -/
theorem nodup_map_updateTips (hfresh : E.blockHash tip.header ∉ tips.map fun t => E.blockHash t.header) :
    ((updateTips E tips prevHash tip).map fun t => E.blockHash t.header).Nodup := by
  rw [updateTips_eq hnd]
  split_ifs with hp
  · have hg : (tips.map fun t => if E.blockHash t.header = prevHash then tip else t).map
          (fun t => E.blockHash t.header) = (tips.map fun t => E.blockHash t.header).map
          fun x => if x = prevHash then E.blockHash tip.header else x := by
      simp only [List.map_map]
      exact List.map_congr_left fun t _ => by simp only [Function.comp_apply]; split_ifs <;> rfl
    rw [hg]
    refine hnd.map_on fun a ha b hb hab => ?_
    split_ifs at hab with h1 h2 h2
    · exact h1.trans h2.symm
    · exact absurd (hab ▸ hb) hfresh
    · exact absurd (hab.symm ▸ ha) hfresh
    · exact hab
  · rw [List.map_append, List.nodup_append]
    refine ⟨hnd, List.nodup_singleton _, ?_⟩
    simpa [List.disjoint_singleton] using hfresh

/-- The new tip is among the updated tips. -/
theorem tip_mem_updateTips : tip ∈ updateTips E tips prevHash tip := by
  rw [updateTips_eq hnd]
  split_ifs with hp
  · obtain ⟨t, ht, htp⟩ := List.mem_map.1 hp
    exact List.mem_map.2 ⟨t, ht, if_pos htp⟩
  · exact List.mem_append_right _ (List.mem_singleton_self _)

end UpdateTips

/-- Every updated tip is the new tip or an old one. -/
theorem mem_updateTips {E : Env Transaction} {tips : List Tip} {prevHash : BlockHash}
    {tip t : Tip} (ht : t ∈ updateTips E tips prevHash tip) : t = tip ∨ t ∈ tips := by
  unfold updateTips at ht
  split at ht
  · rcases List.mem_or_eq_of_mem_set ht with h | h
    · exact .inr h
    · exact .inl h
  · simpa [or_comm] using ht

end BlockchainState

end BitcoinAdaptor

import Nbtrfs.Path

/-!
# Paths and their components

Reference: `string.c`.

`count_l`, `split`, `get_name` and `parent_path` scan the text of a path, each in its own way: counting
slashes, skipping runs of them, from the last slash on, and backwards from the end. On a joined path
`/c1/.../cn` they all see the same components. The length of the path plays no part in the scans;
`parent_path` copies into a buffer of `PATH_MAX` bytes, which no longer path reaches.
-/

namespace Nbtrfs

variable {name pre : CString} {cs : List CString}

/-! ## One component at the end -/

/-- `get_name` returns what stands behind the last slash. -/
theorem getName_append (hc : slash ∉ name) : getName (pre ++ slash :: name) = name := by
  have hrev : (pre ++ slash :: name).reverse = name.reverse ++ slash :: pre.reverse := by simp
  rw [getName, hrev, List.takeWhile_append_of_pos fun x hx => by
    simpa using fun h : x = slash => hc (h ▸ List.mem_reverse.mp hx)]
  simp

/-- The scan of `parent_path` stops at the last slash before its start. -/
theorem lastSlash_eq {path : CString} {k e : ℕ} (hk : path[k]? = some slash)
    (hlast : ∀ j, k < j → j ≤ e → path[j]? ≠ some slash) (he : k ≤ e) : lastSlash path e = k := by
  induction e with
  | zero => rw [lastSlash, Nat.le_zero.mp he]
  | succ e ih =>
      rw [lastSlash]
      by_cases hke : k = e + 1
      · rw [if_pos (hke ▸ hk), hke]
      · rw [if_neg (hlast (e + 1) (by omega) le_rfl)]
        exact ih (fun j hj hle => hlast j hj (by omega)) (by omega)

/-- The scan for the last slash stops in front of a name that has none. -/
theorem lastSlash_append (hc : slash ∉ name) :
    lastSlash (pre ++ slash :: name) ((pre ++ slash :: name).length - 1) = pre.length := by
  apply lastSlash_eq
  · simp
  · intro j hj _ hslash
    -- behind `pre` and the slash there is only the component
    have hmem : (pre ++ slash :: name)[j]? = name[j - (pre.length + 1)]? := by
      rw [List.getElem?_append_right (by omega), List.getElem?_cons, if_neg (by omega)]
      congr 1
    rw [hmem] at hslash
    exact hc (List.mem_of_getElem? hslash)
  · simp only [List.length_append, List.length_cons]
    omega

/-! ## Joined paths -/

theorem joined_concat (cs : List CString) (c : CString) :
    joined (cs ++ [c]) = joined cs ++ slash :: c := by
  rw [joined_append]
  simp [joined]

theorem joined_ne_nil (hne : cs ≠ []) : joined cs ≠ [] := by
  obtain ⟨c, cs, rfl⟩ := List.exists_cons_of_ne_nil hne
  rw [joined_cons]
  exact List.cons_ne_nil _ _

/-- A joined path has a character behind its first slash. -/
theorem joined_ne_slash (h : ∀ c ∈ cs, IsComponent c) : joined cs ≠ [slash] := by
  cases cs with
  | nil => exact (List.cons_ne_nil _ _).symm
  | cons c cs =>
      intro heq
      rw [joined_cons, List.cons_append, List.cons.injEq] at heq
      exact (h c List.mem_cons_self).1 (List.append_eq_nil_iff.mp heq.2).1

theorem getName_joined (h : ∀ c ∈ cs, IsComponent c) (hne : cs ≠ []) :
    getName (joined cs) = cs.getLast hne := by
  have hlast := h _ (List.getLast_mem hne)
  have hcs := List.dropLast_append_getLast hne
  have hjoin := joined_concat cs.dropLast (cs.getLast hne)
  rw [hcs] at hjoin
  rw [hjoin, getName_append hlast.2]

/-- The path of the directory that a path lies in, as the callers ask for it. -/
def parentOf (path : CString) : CString := parentPath path (countL path)

/-- `parent_path` drops the last component; what is left of a single one is the root. -/
theorem parentOf_joined (h : ∀ c ∈ cs, IsComponent c) (hne : cs ≠ []) :
    parentOf (joined cs) = if cs.length = 1 then [slash] else joined cs.dropLast := by
  have hpos := List.length_pos_of_ne_nil hne
  rw [parentOf, countL_joined h, parentPath]
  by_cases hone : cs.length = 1
  · rw [if_pos hone.le, if_pos hone]
  · have hlast := h _ (List.getLast_mem hne)
    have hjoin := joined_concat cs.dropLast (cs.getLast hne)
    rw [List.dropLast_append_getLast hne] at hjoin
    have hinit : cs.dropLast ≠ [] := by
      intro hnil
      have hlen := congrArg List.length hnil
      rw [List.length_dropLast, List.length_nil] at hlen
      omega
    have hlen := List.length_pos_of_ne_nil (joined_ne_nil hinit)
    rw [if_neg (by omega), if_neg hone, hjoin, lastSlash_append hlast.2]
    simp only
    rw [if_neg hlen.ne', List.take_left' rfl]

/-- Taking parents `k` times drops `k` components, as long as one is left. -/
theorem iterate_parentOf (h : ∀ c ∈ cs, IsComponent c) {k : ℕ} (hk : k < cs.length) :
    parentOf^[k] (joined cs) = joined (cs.take (cs.length - k)) := by
  induction k with
  | zero => rw [Function.iterate_zero_apply, Nat.sub_zero, List.take_length]
  | succ k ih =>
      have hlen : (cs.take (cs.length - k)).length = cs.length - k := by
        rw [List.length_take]
        omega
      have hne : cs.take (cs.length - k) ≠ [] := List.ne_nil_of_length_pos (by omega)
      rw [Function.iterate_succ_apply', ih (by omega),
        parentOf_joined (fun c hc => h c (List.mem_of_mem_take hc)) hne, if_neg (by omega),
        List.dropLast_eq_take, hlen, List.take_take, min_eq_left (Nat.sub_le _ 1), Nat.sub_sub]

/-- The scanners of `string.c` agree on the components of a path: their number, each of them, the last
one, and the path without it. Taking parents reaches `/` after as many steps as there are components,
and not before. -/
theorem joined_components (h : ∀ c ∈ cs, IsComponent c) (hne : cs ≠ []) :
    countL (joined cs) = cs.length ∧
      (∀ i, 1 ≤ i → split (joined cs) i = cs[i - 1]?) ∧
      (∀ i, cs.length < i → split (joined cs) i = none) ∧
      getName (joined cs) = cs.getLast hne ∧
      parentPath (joined cs) (countL (joined cs)) =
        (if cs.length = 1 then [slash] else joined cs.dropLast) ∧
      (∀ k < cs.length, parentOf^[k] (joined cs) ≠ [slash]) ∧
      parentOf^[cs.length] (joined cs) = [slash] := by
  have hpos := List.length_pos_of_ne_nil hne
  have hsplit (i : ℕ) (hi : 1 ≤ i) : split (joined cs) i = cs[i - 1]? := by
    obtain ⟨n, rfl⟩ := Nat.exists_eq_add_of_le' hi
    exact split_joined h n
  refine ⟨countL_joined h, hsplit, fun i hi => ?_, getName_joined h hne, parentOf_joined h hne,
    fun k hk => ?_, ?_⟩
  · rw [hsplit i (by omega), List.getElem?_eq_none (by omega)]
  · rw [iterate_parentOf h hk]
    exact joined_ne_slash fun c hc => h c (List.mem_of_mem_take hc)
  · obtain ⟨n, hn⟩ := Nat.exists_eq_succ_of_ne_zero hpos.ne'
    rw [hn, Function.iterate_succ_apply', iterate_parentOf h (by omega)]
    have hlen : (cs.take (cs.length - n)).length = 1 := by
      rw [List.length_take]
      omega
    rw [parentOf_joined (fun c hc => h c (List.mem_of_mem_take hc))
      (List.ne_nil_of_length_pos (by omega)), if_pos hlen]

theorem joined_components_2 : countL (joined [[97], [98, 99]]) = 2 ∧
    split (joined [[97], [98, 99]]) 2 = some [98, 99] ∧ getName (joined [[97], [98, 99]]) = [98, 99] := by
  have hcs : ∀ c ∈ ([[97], [98, 99]] : List CString), IsComponent c := by simp [IsComponent, slash]
  obtain ⟨hcount, hsplit, -, hname, -⟩ := joined_components hcs (List.cons_ne_nil _ _)
  exact ⟨hcount, hsplit 2 (by decide), hname⟩

end Nbtrfs

import Mathlib.Data.List.Infix

/-!
# Cutting a stream at a separator

A reader holds what it has read until that ends in the separator. It hands on what stands
before the separator, and begins again.

- `cut`: the pieces handed on, and what is held when the stream ends.
- `framed`: messages, each with the separator behind it. `framed_cut`: nothing is lost.
- `cut_framed_iff`: the messages are got back exactly when none of them has the separator in
  it, for a separator whose first byte does not occur again.
-/

namespace CLib

variable {α : Type}

def cut [DecidableEq α] (sep : List α) : List α → List α → List (List α) × List α
  | held, [] => ([], held)
  | held, a :: s =>
    if sep <:+ held ++ [a] then
      ((held ++ [a]).take (held.length + 1 - sep.length) :: (cut sep [] s).1, (cut sep [] s).2)
    else cut sep (held ++ [a]) s

/-- Messages, each with the separator behind it. -/
def framed (sep : List α) (ps : List (List α)) : List α := (ps.map (· ++ sep)).flatten

theorem framed_cons (sep p : List α) (ps : List (List α)) :
    framed sep (p :: ps) = p ++ sep ++ framed sep ps := rfl

/-- A separator whose first byte does not occur again overlaps itself nowhere. -/
theorem not_infix_dropLast {c : α} {t : List α} (hc : c ∉ t) : ∀ {p : List α}, ¬ c :: t <:+: p →
    ¬ c :: t <:+: (p ++ c :: t).dropLast
  | [], _, h => by
    have hle := h.length_le
    rw [List.nil_append, List.length_dropLast, List.length_cons] at hle
    omega
  | a :: p, hp, h => by
    have ih := not_infix_dropLast hc (p := p) fun hinfix => hp (List.infix_cons hinfix)
    rw [List.dropLast_append_of_ne_nil (List.cons_ne_nil c t)] at h ih
    rw [List.cons_append] at h
    rcases List.infix_cons_iff.mp h with hprefix | hinfix
    · obtain ⟨hca, ht⟩ := List.cons_prefix_cons.mp hprefix
      subst hca
      rcases List.prefix_or_prefix_of_prefix ht (List.prefix_append p _) with hle | ⟨z, hz⟩
      · exact hp (List.cons_prefix_cons.mpr ⟨rfl, hle⟩).isInfix
      · -- the separator would begin again inside itself
        cases z with
        | nil =>
          rw [List.append_nil] at hz
          exact hp (hz ▸ List.infix_rfl)
        | cons b z =>
          have htne : t ≠ [] := by
            rintro rfl
            simp at hz
          rw [← hz, List.prefix_append_right_inj, hz, List.dropLast_cons_of_ne_nil htne] at ht
          obtain ⟨rfl, -⟩ := List.cons_prefix_cons.mp ht
          exact hc (hz ▸ List.mem_append_right p (List.mem_cons_self ..))
    · exact ih hinfix

/-! ## One piece -/

variable [DecidableEq α]

/-- The first place where the separator ends is where the reader stops. -/
theorem cut_first {sep s : List α} : ∀ {held t : List α}, t ≠ [] → sep <:+ held ++ t →
    ¬ sep <:+: (held ++ t).dropLast → cut sep held (t ++ s) =
      ((held ++ t).take ((held ++ t).length - sep.length) :: (cut sep [] s).1, (cut sep [] s).2)
  | _, [], h, _, _ => absurd rfl h
  | held, [a], _, hend, _ => by
    show cut sep held (a :: s) = _
    rw [cut, if_pos hend, List.length_append, List.length_singleton]
  | held, a :: b :: t, _, hend, hfirst => by
    have hassoc : held ++ a :: b :: t = held ++ [a] ++ b :: t := by simp
    -- an earlier end would be an occurrence before the last byte
    have hnot : ¬ sep <:+ held ++ [a] := fun h => hfirst <| by
      rw [hassoc, List.dropLast_append_of_ne_nil (List.cons_ne_nil b t)]
      exact h.isInfix.trans (List.prefix_append _ _).isInfix
    have ih := @cut_first sep s (held ++ [a]) (b :: t) (List.cons_ne_nil b t) (hassoc ▸ hend)
      (hassoc ▸ hfirst)
    show cut sep held (a :: (b :: t ++ s)) = _
    rw [cut, if_neg hnot, hassoc]
    exact ih

theorem cut_message {c : α} {t p : List α} (hc : c ∉ t) (hp : ¬ c :: t <:+: p) (s : List α) :
    cut (c :: t) [] (p ++ c :: t ++ s) = (p :: (cut (c :: t) [] s).1, (cut (c :: t) [] s).2) := by
  have hne : p ++ c :: t ≠ [] := by simp
  have hfirst := @cut_first α _ (c :: t) s [] (p ++ c :: t) hne
    (by rw [List.nil_append]; exact List.suffix_append p _)
    (by rw [List.nil_append]; exact not_infix_dropLast hc hp)
  have htake : (p ++ c :: t).take ((p ++ c :: t).length - (c :: t).length) = p := by
    rw [List.length_append, Nat.add_sub_cancel, List.take_left']
    rfl
  rw [hfirst, List.nil_append, htake]

/-! ## Whole streams -/

/-- Nothing is lost: the pieces, each with the separator behind it, and what is held. -/
theorem framed_cut (sep : List α) : ∀ (held s : List α),
    framed sep (cut sep held s).1 ++ (cut sep held s).2 = held ++ s
  | held, [] => (List.append_nil held).symm
  | held, a :: s => by
    have hassoc : held ++ a :: s = held ++ [a] ++ s := by simp
    rw [cut, hassoc]
    split
    · next hend =>
      obtain ⟨p, hp⟩ := hend
      have hlen : held.length + 1 - sep.length = p.length := by
        have := congrArg List.length hp
        rw [List.length_append, List.length_append, List.length_singleton] at this
        omega
      have htake : (held ++ [a]).take (held.length + 1 - sep.length) = p := by
        rw [hlen, ← hp, List.take_left']
        rfl
      rw [framed_cons, htake, hp, List.append_assoc, framed_cut sep [] s, List.nil_append]
    · exact framed_cut sep (held ++ [a]) s

/-- No piece has the separator in it. -/
theorem not_infix_of_mem_cut {sep : List α} (hsep : sep ≠ []) : ∀ {s held : List α},
    ¬ sep <:+: held → ∀ p ∈ (cut sep held s).1, ¬ sep <:+: p
  | [], _, _ => fun _ hp => nomatch hp
  | a :: s, held, hheld => by
    intro p hp
    rw [cut] at hp
    split at hp
    · rcases List.mem_cons.mp hp with rfl | hp
      · -- the separator has taken the last byte
        intro h
        have hpos : 0 < sep.length := List.length_pos_iff.mpr hsep
        rw [List.take_append_of_le_length (by omega)] at h
        exact hheld (h.trans (List.take_prefix _ _).isInfix)
      · exact not_infix_of_mem_cut hsep (by simpa using hsep) p hp
    · next hnot =>
      refine not_infix_of_mem_cut hsep (fun h => ?_) p hp
      rcases List.infix_concat_iff.mp h with h | h
      · exact hnot h
      · exact hheld h

/-- **Messages are got back** from their stream if and only if none of them has the
separator in it. -/
theorem cut_framed_iff {c : α} {t : List α} (hc : c ∉ t) {ps : List (List α)} :
    cut (c :: t) [] (framed (c :: t) ps) = (ps, []) ↔ ∀ p ∈ ps, ¬ c :: t <:+: p := by
  constructor
  · intro h p hp
    have hpieces := @not_infix_of_mem_cut α _ (c :: t) (List.cons_ne_nil c t)
      (framed (c :: t) ps) [] (by simp)
    rw [h] at hpieces
    exact hpieces p hp
  · intro h
    induction ps with
    | nil => rfl
    | cons p ps ih =>
      have hrest := ih fun q hq => h q (List.mem_cons_of_mem p hq)
      rw [framed_cons, cut_message hc (h p (List.mem_cons_self ..)), hrest]

end CLib

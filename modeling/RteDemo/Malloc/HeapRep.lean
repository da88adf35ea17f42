import RteDemo.Malloc.Focus

/-!
# Heaps and the arenas they represent

`HeapRep s ars`: the memory of `s` describes the arenas `ars`, and the free lists of its heaps
hold exactly the free elements, each once, in the bucket of its size. `HeapRep.rewrite` is the
frame rule: to replace a few neighbouring elements it is enough to look at their own headers and
at the `prev` field just behind them.

With it, each primitive of the allocator becomes one step on arenas: taking an element off its
list, putting it on one, splitting an element, joining two, marking one busy, clearing the inside
of a free one.
-/

namespace RteDemo

open Bytes Tiling

structure HeapRep (s : HeapState) (ars : List Arena) : Prop where
  wf : ∀ ar ∈ ars, ar.frame.WF
  apart : (ars.map Arena.frame).Pairwise Frame.Apart
  ok : ∀ ar ∈ ars, ∀ e ∈ ar.elems, e.OK
  rep : ∀ ar ∈ ars, Tail s.mem ar.heap ar.ms 0 ar.base ar.elems
  listed : ∀ heap idx, ((s.mallocHeaps heap).freeHead idx).Perm (freeAt heap idx ars)

namespace HeapRep

variable {s s' : HeapState} {c : Focus} {D D' : List Elem}

/-! ## Around a gap -/

theorem arena_mem (c : Focus) (D : List Elem) : c.arena D ∈ c.plug D := by simp [Focus.plug]

theorem gap_ok (h : HeapRep s (c.plug D)) : ∀ e ∈ D, e.OK := fun e he =>
  h.ok _ (arena_mem c D) e (by simp [Focus.arena, he])

theorem left_ok (h : HeapRep s (c.plug D)) : ∀ e ∈ c.left, e.OK := fun e he =>
  h.ok _ (arena_mem c D) e (by simp [Focus.arena, he])

theorem right_ok (h : HeapRep s (c.plug D)) : ∀ e ∈ c.right, e.OK := fun e he =>
  h.ok _ (arena_mem c D) e (by simp [Focus.arena, he])

theorem base_pos (h : HeapRep s (c.plug D)) : 64 ≤ c.base := by
  have hwf := h.wf _ (arena_mem c D)
  exact Nat.le_of_dvd hwf.pos hwf.dvd

theorem base_le_pos (c : Focus) : c.base ≤ c.pos := by unfold Focus.pos; omega

theorem pos_dvd (h : HeapRep s (c.plug D)) : 64 ∣ c.pos :=
  Nat.dvd_add (h.wf _ (arena_mem c D)).dvd (dvd_total h.left_ok)

theorem top (h : HeapRep s (c.plug D)) :
    c.pos + total Elem.size D + total Elem.size c.right + 64 ≤ 2 ^ 64 := by
  have hwf := (h.wf _ (arena_mem c D)).top
  simpa [Arena.frame, Focus.stop_arena] using hwf

theorem split_tail (h : HeapRep s (c.plug D)) :
    Chain s.mem c.heap c.ms 0 c.base c.left ∧ Chain s.mem c.heap c.ms c.prev c.pos D ∧
      Tail s.mem c.heap c.ms (lastStart Elem.size c.prev c.pos D) (c.pos + total Elem.size D)
        c.right := by
  have hrep := h.rep _ (arena_mem c D)
  simp only [Focus.arena, List.append_assoc, tail_append] at hrep
  exact hrep

theorem gap_chain (h : HeapRep s (c.plug D)) : Chain s.mem c.heap c.ms c.prev c.pos D :=
  h.split_tail.2.1

theorem right_tail (h : HeapRep s (c.plug D)) :
    Tail s.mem c.heap c.ms (lastStart Elem.size c.prev c.pos D) (c.pos + total Elem.size D)
      c.right :=
  h.split_tail.2.2

/-- The other arenas lie apart from the one with the gap. -/
theorem others_apart (h : HeapRep s (c.plug D)) {br : Arena} (hbr : br ∈ c.before ++ c.after) :
    br.frame.Apart (c.arena D).frame := by
  have hp := h.apart
  simp only [Focus.plug, List.map_append, List.map_cons, List.pairwise_append,
    List.pairwise_cons] at hp
  rcases List.mem_append.mp hbr with hb | ha
  · exact hp.2.2 _ (List.mem_map_of_mem hb) _ List.mem_cons_self
  · exact (hp.2.1.1 _ (List.mem_map_of_mem ha)).symm

theorem mem_plug {br : Arena} :
    br ∈ c.plug D ↔ br = c.arena D ∨ br ∈ c.before ++ c.after := by
  simp only [Focus.plug, List.mem_append, List.mem_cons]
  tauto

/-- No other free element is at the address of the gap. -/
theorem pos_not_mem_rest (h : HeapRep s (c.plug D)) (hD : D ≠ []) (heap idx : Nat) :
    c.pos ∉ c.restFree heap idx (total Elem.size D) := by
  have hsz := total_pos h.gap_ok hD
  have hother : ∀ br ∈ c.before ++ c.after, ∀ e, (c.pos, e) ∉ place Elem.size br.base br.elems := by
    intro br hbr e he
    have hb := place_bounds Elem.size he
    have hap := h.others_apart hbr
    have hok := (h.ok br (mem_plug.mpr (.inr hbr)) e (mem_of_mem_place Elem.size he)).le
    have hbp := base_le_pos c
    simp only [Frame.Apart, Arena.frame, Focus.stop_arena] at hap
    simp only [Arena.stop, Focus.arena] at hap
    omega
  intro hm
  simp only [Focus.restFree, List.mem_append] at hm
  rcases hm with (hm | hm) | hm
  · obtain ⟨br, hbr, -, n, hn, -⟩ := mem_freeAt.mp hm
    exact hother br (List.mem_append_left _ hbr) _ hn
  · split_ifs at hm with hh
    · rcases List.mem_append.mp hm with hl | hr
      · obtain ⟨n, hn, -⟩ := mem_freeAddrs.mp hl
        have hb := place_bounds Elem.size hn
        have hok := (h.left_ok _ (mem_of_mem_place Elem.size hn)).le
        simp only [Focus.pos] at hb hok
        omega
      · obtain ⟨n, hn, -⟩ := mem_freeAddrs.mp hr
        have hb := (place_bounds Elem.size hn).1
        omega
    · exact absurd hm List.not_mem_nil
  · obtain ⟨br, hbr, -, n, hn, -⟩ := mem_freeAt.mp hm
    exact hother br (List.mem_append_right _ hbr) _ hn

end HeapRep

/-! ## The frame rule -/

/-- The memory `m'` describes `D'` in the gap where `m` describes `D`, and differs from `m` only
in the gap and in the `prev` field of the header behind it. -/
structure Focus.Rewrites (c : Focus) (D D' : List Elem) (m m' : Mem) : Prop where
  size : total Elem.size D' = total Elem.size D
  ok : ∀ e ∈ D', e.OK
  below : ∀ x, x < c.pos → m' x = m x
  behind : Agree m m' (c.pos + total Elem.size D) (c.pos + total Elem.size D + 8)
  above : ∀ x, c.pos + total Elem.size D + 16 ≤ x → m' x = m x
  next : mallocElem.get .prev m' (c.pos + total Elem.size D) = lastStart Elem.size c.prev c.pos D'
  chain : Chain m' c.heap c.ms c.prev c.pos D'

theorem HeapRep.rewrite {s s' : HeapState} {c : Focus} {D D' : List Elem}
    (h : HeapRep s (c.plug D)) (hw : c.Rewrites D D' s.mem s'.mem)
    (hl : ∀ heap idx, ((s'.mallocHeaps heap).freeHead idx).Perm
      ((if c.heap = heap then freeAddrs idx c.pos D' else []) ++
        c.restFree heap idx (total Elem.size D))) :
    HeapRep s' (c.plug D') := by
  have hframes := c.frames_plug hw.size
  have hstop : (c.arena D').stop = (c.arena D).stop := by
    rw [c.stop_arena, c.stop_arena, hw.size]
  have hmem : ∀ br, br ∈ c.before ++ c.after → br ∈ c.plug D := fun br hbr => mem_plug.mpr (.inr hbr)
  refine ⟨fun br hbr => ?_, hframes ▸ h.apart, fun br hbr => ?_, fun br hbr => ?_, fun heap idx => ?_⟩
  · rcases mem_plug.mp hbr with rfl | hbr
    · have hwf := h.wf _ (arena_mem c D)
      exact ⟨hwf.pos, hwf.dvd, show (c.arena D').stop + 64 ≤ 2 ^ 64 from hstop ▸ hwf.top⟩
    · exact h.wf br (hmem br hbr)
  · rcases mem_plug.mp hbr with rfl | hbr
    · intro e he
      simp only [Focus.arena, List.mem_append] at he
      rcases he with (he | he) | he
      · exact h.left_ok e he
      · exact hw.ok e he
      · exact h.right_ok e he
    · exact h.ok br (hmem br hbr)
  · rcases mem_plug.mp hbr with rfl | hbr
    · -- the arena itself: left of the gap, the gap, right of it
      obtain ⟨hleft, -, hright⟩ := h.split_tail
      simp only [Focus.arena, List.append_assoc, tail_append]
      refine ⟨hleft.congr h.left_ok fun x _ hx => hw.below x hx, hw.chain, ?_⟩
      have hpos : c.base + total Elem.size c.left = c.pos := rfl
      rw [hpos, hw.size]
      exact hright.setPrev h.right_ok hw.behind (fun x hx _ => hw.above x hx) hw.next
    · -- another arena: nothing changed there
      have hap := h.others_apart hbr
      have htop : c.base ≤ c.pos := base_le_pos c
      simp only [Frame.Apart, Arena.frame, Focus.stop_arena] at hap
      simp only [Focus.arena] at hap
      have hag : Agree s.mem s'.mem br.base (br.stop + 64) := by
        intro x hx hx'
        rcases Nat.lt_or_ge x c.pos with hlt | hge
        · exact hw.below x hlt
        · exact hw.above x (by omega)
      have hok := h.ok br (hmem br hbr)
      obtain ⟨hc, he⟩ := h.rep br (hmem br hbr)
      refine ⟨hc.congr hok (hag.mono (Nat.le_refl _) (Nat.le_add_right _ _)), ?_⟩
      have hend : Agree s.mem s'.mem br.stop (br.stop + 64) :=
        hag.mono (by unfold Arena.stop; omega) (Nat.le_refl _)
      exact he.setPrev (hend.mono (Nat.le_add_right _ _) (Nat.le_refl _))
        ((mallocElem.get_agree hend (Nat.le_add_right _ _)
          (by change _ + 16 ≤ _ + 64; omega)).trans he.prev)
  · have hperm := c.freeAt_plug heap idx D'
    rw [hw.size] at hperm
    exact (hl heap idx).trans hperm.symm

end RteDemo

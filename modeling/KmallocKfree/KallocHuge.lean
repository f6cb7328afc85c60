import KmallocKfree.Kalloc

/-!
# Large allocations keep the invariant

A request above 16 KiB is cut off the tail of the highest node that fits it. The fit
test of the source leaves out the header; that the node has room for the header, and
for its own record in front of it, is a hypothesis here.
-/
namespace KmallocKfree

open Prog Region Shape
open ByteMemory (Mem)

/-- A large allocation was refused and changed nothing, or gave a block. -/
def HugeResult (p : Platform) (sh : Shape) (live : List Block) (s : PmmState) (n a : ℕ)
    (s' : PmmState) : Prop :=
  (a = 0 ∧ s' = s ∧ ∀ r ∈ sh.free, r.len < roundSize n) ∨
    ∃ l₁ r l₂, sh.free = l₁ ++ r :: l₂ ∧ HighestFit sh.free (roundSize n) r ∧
      a = r.stop - roundSize n ∧
      Inv p ⟨s', ⟨a, n⟩ :: live⟩ ⟨l₁ ++ beforeBlock r (roundSize n) :: l₂, sh.pages⟩

variable {p : Platform} {sh : Shape} {live : List Block} {s : PmmState} {n : ℕ} {r t : Region}

theorem Shape.Sound.node_disj (h : Sound p sh live) (hr : r ∈ sh.free) (ht : t ∈ sh.free)
    (hne : r ≠ t) : r.node.Disj t.node := by
  have : Std.Symm fun a b : Region => a.node.Disj b.node := ⟨fun _ _ => Disj.symm⟩
  exact (List.pairwise_map.mp h.free_pairwise).forall hr ht hne

theorem wp_kallocHugeMemory_inv (h : Inv p ⟨s, live⟩ sh) (hbig : 16384 < n)
    (hmax : n ≤ 16777216)
    (hroom : ∀ r, HighestFit sh.free (roundSize n) r → roundSize n + 32 ≤ r.len) :
    wp (callFoot sh live []).Allows (kallocHugeMemory (roundSize n)) s
      (HugeResult p sh live s n) := by
  have hs := h.sound
  have hsize := roundSize_huge hbig hmax
  have hlimit := p.limit_max
  set F := heapFoot sh.free (fun q => ∃ r ∈ sh.free, Within ⟨q, headerBytes⟩ r.node) 0 with hF
  have hsub : F.Sub (callFoot sh live []) := by
    refine heapFoot_sub (fun x hx b hb => ?_) (fun x hx => .inl hx) fun q hq => .inr hq
    exact hs.disj_all (fun pg hpg => hs.free_page hx hpg)
      (fun c hc hch => hs.free_huge hx hc hch) hb
  have hheader : ∀ x, HighestFit sh.free (roundSize n) x →
      F.Owns .header (x.stop - roundSize n - headerBytes) 16 ∧
        ∀ t ∈ sh.free, t ≠ x → Apart (x.stop - roundSize n - headerBytes) t.start := by
    intro x hx
    have hlen := hroom x hx
    have hin : Within ⟨x.stop - roundSize n - headerBytes, headerBytes⟩ x.node := by
      unfold Within Region.node Region.stop headerBytes
      simp only
      omega
    refine ⟨heapFoot_header (hs.free_pos hx.1) hx.1 hin ⟨x, hx.1, hin⟩, fun t ht hne => ?_⟩
    have hd := (hs.node_disj hx.1 ht hne.symm).mono hin
    unfold Disj Region.node Region.stop headerBytes at hd
    unfold Apart Region.stop headerBytes
    simp only at hd
    omega
  have hcut := wp_kallocHugeMemory (F := F) h.holds.heap h.unlocked.1 (.inl rfl) rfl
    (fun x hx => heapFoot_node (hs.free_pos hx) hx) hs.free_count hs.separated
    (by omega) (fun x hx => lt_of_le_of_lt (hs.free x hx).2.2 hlimit) hroom hheader
  refine wp_post (wp_within hcut hsub) ?_
  rintro a u ⟨⟨hlock, hvar, hcases⟩, hframe⟩
  rcases hcases with ⟨rfl, rfl, hnone⟩ | ⟨l₁, r, l₂, hfree, hfit, rfl, hlist, hsz, hmagic⟩
  · exact .inl ⟨rfl, rfl, hnone⟩
  · have hlen := hroom r hfit
    have hsound := @Sound.cut p sh live ⟨r.stop - roundSize n, n⟩ l₁ l₂ r hs hfree hbig hmax
      hlen rfl
    rw [← hvar] at hlist
    have hchanged := h.holds.heap_changed sh.free hlist (fun cpu => by rw [hvar])
      (fun y hy => hframe.mem y fun ⟨x, hx, hxy⟩ => hy x hx hxy)
      (fun pg hpg => (hs.pages pg hpg).1) (fun x hx pg hpg => hs.free_page hx hpg)
      fun x hx c hc hch => hs.free_huge hx hc hch
    refine .inr ⟨l₁, r, l₂, hfree, hfit, rfl, hsound, ?_, ?_⟩
    · refine ⟨hchanged.heap, hchanged.lists, hchanged.pages, fun b hb hbh => ?_⟩
      rcases List.mem_cons.mp hb with rfl | hb
      · exact ⟨hsz, hmagic⟩
      · exact hchanged.headers b hb hbh
    · unfold Unlocked
      rw [hlock]
      exact h.unlocked

end KmallocKfree

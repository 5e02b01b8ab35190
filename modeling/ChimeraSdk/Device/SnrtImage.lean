import ChimeraSdk.Device.SnrtInit

/-! # What the Initialisation Leaves

    The cores and the transfers of `snrt_init` store bytes of one image, each
    piece apart from the others, and one word twice, by the same core.  So
    every run leaves the image, and whether the linker keeps the pieces apart
    decides whether the initialisation works. -/

open Cluster ByteMemory Align Soc
open LinkLd (clusterBase)

namespace Snrt

namespace InitArgs

variable {L : Type} {numThreads : Nat} {x : InitArgs numThreads} {mem : Mem} {l : L} {m : Mem × L}

/-! ## Section 1: Pieces -/

theorem mem_pieces_cell {cell : Nat × Nat} (hcell : cell ∈ x.laidCells) :
    cellPiece cell ∈ x.pieces mem := by
  apply List.mem_append_left
  exact List.mem_append_right _ (List.mem_map.mpr ⟨cell, hcell, rfl⟩)

/-- The place of `next`, with the value it is left with. -/
def nextPiece (x : InitArgs numThreads) : Piece := cellPiece (x.l1_allocator.next, x.mutex.2)

theorem nextPiece_mem : x.nextPiece ∈ x.pieces mem :=
  mem_pieces_cell (List.mem_append_right _ List.mem_cons_self)

theorem storeNext_stores (x : InitArgs numThreads) (I : Mem × L → Prop) :
    StoresAt I (image (fun _ => 0) [cellPiece (x.l1_allocator.next, x.l1_base)])
      x.l1_allocator.next 4 x.storeNext := by
  apply storesAt_value
  intro j hj
  exact image_inside (List.pairwise_singleton _ _)
    (List.mem_singleton_self (cellPiece (x.l1_allocator.next, x.l1_base))) hj

theorem keeps_storeNext : Keeps (Around mem (x.pieces mem)) (x.storeNext : Mem × L → Mem × L) := by
  intro m hm b hb
  rw [storeNext_stores x (fun _ => True) m trivial]
  exact (if_neg (hb x.nextPiece nextPiece_mem)).trans (hm b hb)

/-- The first store of `next`, or one of bytes elsewhere. -/
def Beside (x : InitArgs numThreads) (mem : Mem) (f : Mem × L → Mem × L) : Prop :=
  f = x.storeNext ∨ ∃ p i n, Lays mem (x.pieces mem) p i n f ∧ p.Apart x.nextPiece

theorem storeNext_comm {f : Mem × L → Mem × L} {p : Piece} {i n : Nat}
    (hf : Lays mem (x.pieces mem) p i n f) (hp : p.Apart x.nextPiece) :
    CommuteOn (Around mem (x.pieces mem)) f x.storeNext := by
  have hfits := hf.fits
  apply hf.stores.comm_of_disjoint (storeNext_stores x _) hf.keeps keeps_storeNext
  exact fun c hc => hp c ⟨by omega, by omega⟩

theorem Beside.comm {f g : Mem × L → Mem × L} (hf : x.Beside mem f) (hg : x.Beside mem g) :
    CommuteOn (Around mem (x.pieces mem)) f g := by
  obtain rfl | ⟨p, i, n, hf, hp⟩ := hf
  · obtain rfl | ⟨q, j, k, hg, hq⟩ := hg
    · exact fun _ _ => rfl
    · exact (storeNext_comm hg hq).symm
  · obtain rfl | ⟨q, j, k, hg, hq⟩ := hg
    · exact storeNext_comm hf hp
    · exact hf.comm hg

end InitArgs

/-! ## Section 4: With the layout of the linker -/

section Linked

open LinkLd

variable {L : Type} {numThreads : Nat} {x : InitArgs numThreads} {C off B payload P : Nat}

end Linked

end Snrt

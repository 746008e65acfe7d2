import Fscq.Cache
import Fscq.RecArrayUtils

/-!
# Arrays of records on the asynchronous disk

Reading, writing and syncing whole blocks of an array of records through the buffer cache.
-/

namespace Fscq

namespace AsyncRecArray

open CrashProg

variable [Platform] {XParams : Type} (R : RASig XParams)

def readAll (xp : XParams) (count : ℕ) (cs : CacheState) : Prog (CacheState × List R.Item) :=
  BufCache.readRange (R.raStart xp) count R.iunpack [] cs

def writeAligned (xp : XParams) (start : ℕ) (items : List R.Item) (cs : CacheState) :
    Prog CacheState :=
  let chunks := nopadListChunk items R.itemsPerVal
  BufCache.writeRange (R.raStart xp + start) (chunks.map R.block2val) cs

def syncAligned (xp : XParams) (start count : ℕ) (cs : CacheState) : Prog CacheState :=
  BufCache.syncRange (R.raStart xp + start) count cs

variable {R} {xp : XParams} {n : ℕ} {cs : CacheState} {m : ADisk} {hm : Hashmap} {s : St}
  {CC : ADisk → Hashmap → Prop}

theorem wp_readAll {count : ℕ} {Q : CacheState × List R.Item → St → Prop}
    (h : CState n cs m hm s) (hn : R.raStart xp + count ≤ n) (hc : CC m hm)
    (hQ : ∀ cs' s', CState n cs' m hm s' →
      Q (cs', R.items (blocksAt m.cur (R.raStart xp) count)) s') :
    wp diskSem (readAll R xp count cs) Q (CCrash n CC) s := by
  refine BufCache.wp_readRange h hn hc fun cs' s' h' => ?_
  have := hQ cs' s' h'
  rwa [← List.nil_append (R.items _), ← R.foldl_iunpack] at this

theorem wp_writeAligned {start : ℕ} {items : List R.Item} {Q : CacheState → St → Prop}
    (h : CState n cs m hm s) (hn : R.raStart xp + start + (R.nopadIpack items).length ≤ n)
    (hc : ∀ k, CC (m.writes ((ADisk.rangeWrites (R.raStart xp + start)
      (R.nopadIpack items)).take k)) hm)
    (hQ : ∀ cs' s', CState n cs'
      (m.writes (ADisk.rangeWrites (R.raStart xp + start) (R.nopadIpack items))) hm s' → Q cs' s') :
    wp diskSem (writeAligned R xp start items cs) Q (CCrash n CC) s :=
  BufCache.wp_writeRange h hn hc hQ

end AsyncRecArray

end Fscq

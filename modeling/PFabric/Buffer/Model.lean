import PFabric.Kernel.Machine
import PFabric.Support.Lanes

/-!
# The packet buffer behind the qdisc

What a scheduling decision depends on, and nothing else: the limit, the
dequeue switch, the hand-kept length counter, the set of bands marked as
occupied and the band lists.  Statistics, backlog and the words of the bitmap
are gone.  A step also reports which packets it freed.

`Buffer` keeps the marked set and the lists apart, as the code does; whether
they agree is a theorem or its failure, not part of the type.
-/

namespace PFabric

/-- The state that decides what the qdisc does. -/
@[ext]
structure Buffer where
  limit : BitVec 32
  disableDequeue : BitVec 32
  qlen : BitVec 32
  marked : Finset Band
  queues : Band → List SkBuff

/-- The visible effect of one call: its result and the packets it freed. -/
structure Effect where
  ret : Ret
  freed : List SkBuff

/-- The band of an arriving packet, which may be illegal. -/
def bandOf (skb : SkBuff) : ℕ := (skbBand skb).toNat

/-- The priority is legal: the packet has a band list. -/
def Legal (skb : SkBuff) : Prop := bandOf skb < numBands

instance (skb : SkBuff) : Decidable (Legal skb) :=
  inferInstanceAs (Decidable (bandOf skb < numBands))

/-- The band of a packet of legal priority. -/
def Legal.band {skb : SkBuff} (h : Legal skb) : Band := ⟨bandOf skb, h⟩

namespace Buffer

/-- The full-buffer test of an arrival for band `b`: the buffer is full and no
marked band is less urgent than `b`. -/
def Rejects (B : Buffer) (b : Band) : Prop :=
  B.limit ≤ B.qlen ∧ B.marked.Nonempty ∧ ∀ l ∈ B.marked, l ≤ b

instance (B : Buffer) (b : Band) : Decidable (B.Rejects b) :=
  inferInstanceAs (Decidable (_ ∧ _ ∧ _))

/-- Append a packet to its band and mark the band. -/
def store (B : Buffer) (b : Band) (skb : SkBuff) : Buffer :=
  { B with
    qlen := B.qlen + 1
    marked := insert b B.marked
    queues := Lanes.push B.queues b skb }

/-- The band evicted from once band `b` has been marked. -/
def victim (B : Buffer) (b : Band) : Band :=
  (insert b B.marked).max' (Finset.insert_nonempty b B.marked)

/-- Evict the head of band `l`.  The counter goes down even when the list is
empty, and the mark stays even when the list has become empty. -/
def evict (B : Buffer) (l : Band) : Buffer :=
  { B with qlen := B.qlen - 1, queues := Lanes.pop B.queues l }

/-- The buffer after an arrival that passed the full-buffer test. -/
def accept (B : Buffer) (b : Band) (skb : SkBuff) : Effect × Buffer :=
  let S := B.store b skb
  if S.limit < S.qlen then
    (⟨.xmit .cn, (S.queues (B.victim b)).head?.toList⟩, S.evict (B.victim b))
  else (⟨.xmit .success, []⟩, S)

/-- An arrival. -/
def enqueue (B : Buffer) (skb : SkBuff) : Effect × Buffer :=
  if h : Legal skb then
    if B.Rejects h.band then (⟨.xmit .drop, [classified skb]⟩, B)
    else B.accept h.band (classified skb)
  else (⟨.xmit .drop, [classified skb]⟩, B)

/-- The packet at the head of the most urgent marked band. -/
def peek (B : Buffer) : Option SkBuff :=
  if h : B.marked.Nonempty then (B.queues (B.marked.min' h)).head? else none

/-- Hand out the head of band `m`, unmarking the band when it empties. -/
def take (B : Buffer) (m : Band) : Buffer :=
  { B with
    qlen := B.qlen - 1
    marked := if (B.queues m).tail = [] then B.marked.erase m else B.marked
    queues := Lanes.pop B.queues m }

/-- A departure. -/
def dequeue (B : Buffer) : Effect × Buffer :=
  if h : B.disableDequeue = 0 ∧ B.marked.Nonempty then
    match (B.queues (B.marked.min' h.2)).head? with
    | none => (⟨.skb none, []⟩, B)
    | some skb => (⟨.skb (some skb), []⟩, B.take (B.marked.min' h.2))
  else (⟨.skb none, []⟩, B)

/-- A configuration request. -/
def change (B : Buffer) (opt : Option Nlattr) : Effect × Buffer :=
  match opt with
  | none => (⟨.code (-einval), []⟩, B)
  | some opt =>
      if opt.payload.length < sizeofQopt then (⟨.code (-einval), []⟩, B)
      else
        (⟨.code 0, []⟩, { B with
          limit := opt.qopt.limit
          disableDequeue := opt.qopt.disableDequeue })

theorem change_freed (B : Buffer) (opt : Option Nlattr) :
    (B.change opt).1.freed = [] := by
  cases opt with
  | none => rfl
  | some opt =>
      simp only [change]
      split
      · rfl
      · rfl

/-- Purge every list.  The marks stay. -/
def reset (B : Buffer) : Effect × Buffer :=
  (⟨.none, Lanes.flat B.queues⟩, { B with qlen := 0, queues := fun _ => [] })

end Buffer

/-- The machine of the packet buffer. -/
def buffer : Machine Buffer Op Effect where
  step B
    | .enqueue skb => B.enqueue skb
    | .dequeue => B.dequeue
    | .peek => (⟨.skb B.peek, []⟩, B)
    | .change opt => B.change opt
    | .reset => B.reset

/-- The buffer inside a context. -/
def view (c : Ctx) : Buffer where
  limit := c.sch.priv.limit
  disableDequeue := c.sch.priv.disableDequeue
  qlen := c.sch.qlen
  marked := markedBands c.sch.priv.bitmap
  queues := c.sch.priv.queues

@[simp] theorem limit_view (c : Ctx) : (view c).limit = c.sch.priv.limit := rfl

@[simp] theorem disableDequeue_view (c : Ctx) :
    (view c).disableDequeue = c.sch.priv.disableDequeue := rfl

@[simp] theorem qlen_view (c : Ctx) : (view c).qlen = c.sch.qlen := rfl

@[simp] theorem marked_view (c : Ctx) :
    (view c).marked = markedBands c.sch.priv.bitmap := rfl

@[simp] theorem queues_view (c : Ctx) : (view c).queues = c.sch.priv.queues := rfl

end PFabric

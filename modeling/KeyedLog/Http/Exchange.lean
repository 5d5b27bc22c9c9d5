import KeyedLog.Http.Reply
import KeyedLog.Network

/-!
# Exchanges

One request without a body over a connection of its own, and the reply to it, within a time.
-/
namespace KeyedLog.Http

structure Call where
  path : String
  headers : List (String × String)
  deriving DecidableEq, Repr

/-- How a call is written. -/
def Call.requestLine (c : Call) : String := "GET " ++ c.path ++ " HTTP/1.1"

/-- How much of an exchange there is to see for the one that is called. -/
inductive Contact where
  | none
  /-- A connection on which nothing is sent. -/
  | connected
  | called (c : Call)
  deriving DecidableEq, Repr

inductive ExchangeFault where
  | unreachable
  | badPath (cause : Uri.Fault)
  | noReply
  | timedOut
  deriving DecidableEq, Repr

/-- Call an endpoint and wait for the head of the reply. The time counts from the dialing. Without
any time an address that is spelt out is still dialed. -/
def exchange (net : Network) (endpoint : Option Endpoint) (timeout : Nat) (c : Call) :
    Except ExchangeFault Reply × Contact :=
  match endpoint.bind net.dial? with
  | none => (.error (if timeout = 0 then .timedOut else .unreachable), .none)
  | some peer =>
    if timeout = 0 then
      let isSpelt := (endpoint.bind fun e => SocketAddress.ofText? e.text).isSome
      (.error .timedOut, if isSpelt then .connected else .none)
    else
      match Uri.ofText c.path with
      | .error e => (.error (.badPath e), .connected)
      | .ok _ =>
        match peer with
        | .silent => (.error .timedOut, .called c)
        | .answering bytes =>
          match Reply.ofBytes? bytes with
          | some reply => (.ok reply, .called c)
          | none => (.error .noReply, .called c)

end KeyedLog.Http

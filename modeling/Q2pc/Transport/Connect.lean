import Q2pc.Transport.Conn

namespace Q2pc

-- Conversion to a u16, as for a port and by htons.
def u16 (x : Int) : Int := x % 2 ^ 16

-- The options of main that choose the process and its transport. `client` says whether
-- the option is given, `transType` is the one transport that is, or the default.
structure Options where
  server : Int
  client : Bool
  clientId : Int
  transType : TransType
  port : Int
  deriving DecidableEq, Repr

-- `transport_s`
structure Transport where
  type : TransType
  port : Int
  server : Bool
  clientCount : Int
  clientId : Int
  deriving DecidableEq, Repr

-- main, none where ch_log_fatal ends it.
def Options.transport (options : Options) : Option Transport :=
  if options.client ∧ options.server ≠ 0 then none
  else if ¬options.client ∧ options.server = 0 then none
  else if options.client ∧ options.clientId < 0 then none
  else some {
    type := options.transType
    port := u16 options.port
    server := options.server ≠ 0
    clientCount := options.server
    clientId := options.clientId }

-- `q2pc_trans` with its private part, for RUDP that of its base.
structure Trans where
  transport : Transport
  connections : Int
  deriving DecidableEq, Repr

-- trans_factory. UDP counts its connections from 1, Q-Jump from 0.
def Transport.construct (transport : Transport) : Trans where
  transport := transport
  connections :=
    match transport.type with
    | .udpLn | .rdpLn => 1
    | .udpQj | .tcpLn => 0

-- A connection, and the ports that its sockets are bound to and send to.
structure Connected where
  conn : TransConn
  bound : Option Int
  peer : Option Int

-- doconnect. UDP counts the connection after it has bound the port, Q-Jump before.
def Trans.doconnect (trans : Trans) : Trans × Connected :=
  let transport := trans.transport
  let conn : TransConn := .new transport.server transport.type
  match transport.type with
  | .udpLn | .rdpLn =>
      if transport.server then
        ({ trans with connections := trans.connections + 1 },
          ⟨conn, some (u16 (transport.port + trans.connections)), none⟩)
      else (trans, ⟨conn, none, some (u16 (transport.port + transport.clientId))⟩)
  | .udpQj =>
      if transport.server then
        let connections := trans.connections + 1
        ({ trans with connections },
          ⟨conn, some (u16 (transport.port + connections)), some transport.port⟩)
      else
        (trans, ⟨conn, some transport.port, some (u16 (transport.port + transport.clientId))⟩)
  | .tcpLn => (trans, ⟨conn, none, none⟩)

end Q2pc

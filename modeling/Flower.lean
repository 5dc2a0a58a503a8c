import Flower.Quic.Races
import Flower.Quic.Progress
import Flower.Quic.Liveness
import Flower.Quic.OneAtATime
import Flower.Quic.IncomingRun
import Flower.Trojan.RelayRun
import Flower.Tls.Alpn
import Flower.Tls.Outbound
import Flower.Jni
import Flower.Common.Process
